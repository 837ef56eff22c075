import JvmClass.Proofs.Code.Attempts

/-!
# Holes in place

Where a hole is, is computed from the offset of its line before the bytes around it are there, and
used only when everything is laid out. A position that is off by one would damage the line next to
it, and nothing would notice. So each hole has to be within the bytes of its own line and apart from
all others. One line keeps this for the layout, and one hole that is filled keeps it for the code, so
filling changes holes only.
-/

namespace JvmClass

/-! ### Overwriting -/

theorem size_overwrite (code : Array UInt8) (position : Nat) (bytes : Bytes) :
    (overwrite code position bytes).size = code.size := by
  induction bytes generalizing code position with
  | nil => rfl
  | cons byte bytes ih => rw [overwrite, ih, Array.size_setIfInBounds]

theorem getElem?_overwrite_of_outside {code : Array UInt8} {position index : Nat} {bytes : Bytes}
    (houtside : index < position ∨ position + bytes.length ≤ index) :
    (overwrite code position bytes)[index]? = code[index]? := by
  induction bytes generalizing code position with
  | nil => rfl
  | cons byte bytes ih =>
    rw [List.length_cons] at houtside
    rw [overwrite, ih (by omega), Array.getElem?_setIfInBounds_ne (by omega)]

theorem getElem?_overwrite_add {code : Array UInt8} {position index : Nat} {bytes : Bytes}
    (hindex : index < bytes.length) (hend : position + bytes.length ≤ code.size) :
    (overwrite code position bytes)[position + index]? = bytes[index]? := by
  induction bytes generalizing code position index with
  | nil => simp at hindex
  | cons byte bytes ih =>
    rw [List.length_cons] at hindex hend
    cases index with
    | zero =>
      have hposition : position < code.size := by omega
      rw [overwrite, getElem?_overwrite_of_outside (by omega)]
      simp [hposition]
    | succ index =>
      have hshift : position + (index + 1) = position + 1 + index := by omega
      have hend' : position + 1 + bytes.length ≤ (code.setIfInBounds position byte).size := by
        rw [Array.size_setIfInBounds]
        omega
      rw [overwrite, hshift, ih (by omega) hend', List.getElem?_cons_succ]

namespace Hole

/-! ### What a hole holds -/

def Covers (hole : Hole) (position : Nat) : Prop :=
  hole.position ≤ position ∧ position < hole.position + hole.width

def EndsBefore (first second : Hole) : Prop :=
  first.position + first.width ≤ second.position

/-- What stands in code where a hole is. All of it is there, so the hole is within the code. -/
structure Holds (hole : Hole) (code bytes : Bytes) : Prop where
  length_eq : bytes.length = hole.width
  getElem?_eq : ∀ index < hole.width, code[hole.position + index]? = bytes[index]?

variable {hole : Hole}

theorem width_pos (hole : Hole) : 0 < hole.width := by
  unfold width
  split <;> simp

theorem length_placeholder (hole : Hole) : hole.placeholder.length = hole.width := by
  unfold placeholder width
  split <;> rfl

theorem length_bytesFor (final : Label → UInt16) (hole : Hole) :
    (hole.bytesFor final).length = hole.width := by
  unfold bytesFor width
  split <;> rfl

theorem Holds.end_le {code bytes : Bytes} (hholds : hole.Holds code bytes) :
    hole.position + hole.width ≤ code.length := by
  have hpos := hole.width_pos
  have hlast := hholds.getElem?_eq (hole.width - 1) (by omega)
  have hlt : hole.width - 1 < bytes.length := by
    rw [hholds.length_eq]
    omega
  rw [List.getElem?_eq_getElem hlt] at hlast
  have hcode := (List.getElem?_eq_some_iff.1 hlast).1
  omega

theorem Holds.append {code bytes : Bytes} (hholds : hole.Holds code bytes) (back : Bytes) :
    hole.Holds (code ++ back) bytes where
  length_eq := hholds.length_eq
  getElem?_eq index hindex := by
    have hend := hholds.end_le
    rw [List.getElem?_append_left (by omega), hholds.getElem?_eq index hindex]

theorem holds_behind {front : Bytes} (hfront : front.length = hole.position) :
    hole.Holds (front ++ hole.placeholder) hole.placeholder where
  length_eq := hole.length_placeholder
  getElem?_eq index _ := by
    rw [← hfront, List.getElem?_append_right (Nat.le_add_right _ _), Nat.add_sub_cancel_left]

theorem holds_overwrite {code : Array UInt8} {bytes : Bytes}
    (hend : hole.position + hole.width ≤ code.size) (hlength : bytes.length = hole.width) :
    hole.Holds (overwrite code hole.position bytes).toList bytes where
  length_eq := hlength
  getElem?_eq index hindex := by
    rw [Array.getElem?_toList]
    exact getElem?_overwrite_add (by omega) (by omega)

/-- Filling a hole changes nothing that it does not cover. -/
theorem getElem?_overwrite_of_not_covers {code : Array UInt8} {bytes : Bytes} {position : Nat}
    (hlength : bytes.length = hole.width) (hcovers : ¬ hole.Covers position) :
    (overwrite code hole.position bytes)[position]? = code[position]? := by
  unfold Covers at hcovers
  exact getElem?_overwrite_of_outside (by omega)

/-- Filling a hole leaves the ones apart from it as they are. -/
theorem Holds.overwrite {other : Hole} {code : Array UInt8} {bytes new : Bytes}
    (hholds : other.Holds code.toList bytes)
    (hapart : hole.EndsBefore other ∨ other.EndsBefore hole) (hlength : new.length = hole.width) :
    other.Holds (overwrite code hole.position new).toList bytes where
  length_eq := hholds.length_eq
  getElem?_eq index hindex := by
    have hcovers : ¬ hole.Covers (other.position + index) := by
      unfold Covers
      unfold EndsBefore at hapart
      omega
    rw [Array.getElem?_toList, getElem?_overwrite_of_not_covers hlength hcovers,
      ← Array.getElem?_toList, hholds.getElem?_eq index hindex]

end Hole

/-! ### Filling one hole after the other -/

/-- Code in which some of the holes are filled and the others are not yet. -/
structure PartlyFilled (fill : Hole → Bytes) (code : Array UInt8) (done rest : List Hole)
    (current : Array UInt8) : Prop where
  size_eq : current.size = code.size
  filled : ∀ hole ∈ done, hole.Holds current.toList (fill hole)
  unfilled : ∀ hole ∈ rest, hole.Holds current.toList hole.placeholder
  unchanged : ∀ position, (∀ hole ∈ done, ¬ hole.Covers position) →
    current[position]? = code[position]?

namespace PartlyFilled

variable {fill : Hole → Bytes} {code current : Array UInt8} {done more rest : List Hole}

/-- **One hole.** -/
theorem next {hole : Hole} (hpartly : PartlyFilled fill code done (hole :: rest) current)
    (hapart : (done ++ hole :: rest).Pairwise Hole.EndsBefore)
    (hlength : (fill hole).length = hole.width) :
    PartlyFilled fill code (done ++ [hole]) rest
      (overwrite current hole.position (fill hole)) := by
  -- The holes that are done end before this one, and it ends before the others.
  obtain ⟨-, hrest, hbefore⟩ := List.pairwise_append.1 hapart
  have hend := (hpartly.unfilled hole List.mem_cons_self).end_le
  rw [Array.length_toList] at hend
  exact {
    size_eq := by rw [size_overwrite, hpartly.size_eq]
    filled := by
      intro other hother
      obtain hother | hother := List.mem_append.1 hother
      · exact (hpartly.filled other hother).overwrite
          (.inr (hbefore other hother hole List.mem_cons_self)) hlength
      · rw [List.mem_singleton.1 hother]
        exact Hole.holds_overwrite hend hlength
    unfilled := by
      intro other hother
      exact (hpartly.unfilled other (List.mem_cons_of_mem hole hother)).overwrite
        (.inl (List.rel_of_pairwise_cons hrest hother)) hlength
    unchanged := by
      intro position hcovers
      rw [Hole.getElem?_overwrite_of_not_covers hlength (hcovers hole (by simp))]
      apply hpartly.unchanged
      intro other hother
      exact hcovers other (List.mem_append_left _ hother) }

/-- **Some holes.** -/
theorem fillAll (hpartly : PartlyFilled fill code done (more ++ rest) current)
    (hapart : (done ++ (more ++ rest)).Pairwise Hole.EndsBefore)
    (hlength : ∀ hole, (fill hole).length = hole.width) :
    PartlyFilled fill code (done ++ more) rest (fillAll fill more current) := by
  induction more generalizing done current with
  | nil => simpa [JvmClass.fillAll] using hpartly
  | cons hole more ih =>
    have hnext := hpartly.next hapart (hlength hole)
    have hrest := ih hnext (by simpa using hapart)
    simpa [JvmClass.fillAll] using hrest

end PartlyFilled

theorem fillHoles_append {placement : Placement} {size : Nat} {done rest : List Hole}
    {code current : Array UInt8}
    (hdone : fillHoles placement size done code = .ok (.filled current)) :
    fillHoles placement size (done ++ rest) code = fillHoles placement size rest current := by
  obtain ⟨hfillable, rfl⟩ := fillHoles_eq_filled_iff.1 hdone
  clear hdone
  induction done generalizing code with
  | nil => rfl
  | cons hole done ih =>
    obtain ⟨target, hlabel, hlt, hfits⟩ := hfillable hole List.mem_cons_self
    have hrest := fun code => @ih code fun other hother =>
      hfillable other (List.mem_cons_of_mem hole hother)
    have hfinal : placement.final hole.label = target := by
      rw [Placement.final, hlabel, Option.getD_some]
    rw [List.cons_append, fillHoles]
    simp only [Placement.offsetOf, hlabel, if_neg (Nat.not_le.2 hlt)]
    cases hwide : hole.wide with
    | true =>
      simp only [if_true, hrest]
      simp [fillAll, Hole.bytesFor, hwide, hfinal]
    | false =>
      simp only [Bool.false_eq_true, if_false, hfits hwide, if_true, hrest]
      simp [fillAll, Hole.bytesFor, hwide, hfinal]

/-! ### Holes of encoded bytes -/

namespace Encoded

/-- The holes of encoded bytes that stand behind others: none starts too early, each holds its
placeholder, and each is over before the next one starts. -/
structure HasHoles (front : Bytes) (encoded : Encoded) : Prop where
  start_le : ∀ hole ∈ encoded.holes, front.length ≤ hole.position
  holds : ∀ hole ∈ encoded.holes, hole.Holds (front ++ encoded.bytes) hole.placeholder
  apart : encoded.holes.Pairwise Hole.EndsBefore

theorem hasHoles_ofBytes (front bytes : Bytes) : (ofBytes bytes).HasHoles front where
  start_le _ hhole := by cases hhole
  holds _ hhole := by cases hhole
  apart := List.Pairwise.nil

theorem HasHoles.append {front : Bytes} {first second : Encoded} (hfirst : first.HasHoles front)
    (hsecond : second.HasHoles (front ++ first.bytes)) : (first ++ second).HasHoles front := by
  have hend : ∀ hole ∈ first.holes,
      hole.position + hole.width ≤ (front ++ first.bytes).length :=
    fun hole hhole => (hfirst.holds hole hhole).end_le
  exact {
    start_le := by
      intro hole hhole
      obtain hhole | hhole := List.mem_append.1 hhole
      · exact hfirst.start_le hole hhole
      · have hle := hsecond.start_le hole hhole
        rw [List.length_append] at hle
        omega
    holds := by
      intro hole hhole
      change hole.Holds (front ++ (first.bytes ++ second.bytes)) hole.placeholder
      rw [← List.append_assoc]
      obtain hhole | hhole := List.mem_append.1 hhole
      · exact (hfirst.holds hole hhole).append second.bytes
      · exact hsecond.holds hole hhole
    apart := by
      apply List.pairwise_append.2
      refine ⟨hfirst.apart, hsecond.apart, ?_⟩
      intro hole hhole other hother
      exact Nat.le_trans (hend hole hhole) (hsecond.start_le other hother) }

theorem Filled.hasHoles {fill : Hole → Bytes} {position : Nat} {encoded : Encoded} {bytes : Bytes}
    (hfilled : Filled fill position encoded bytes) {front : Bytes}
    (hfront : front.length = position) : encoded.HasHoles front := by
  induction hfilled generalizing front with
  | ofBytes position bytes => exact hasHoles_ofBytes front bytes
  | hole hole hlength =>
    exact {
      start_le := by simp [hfront]
      holds := by simpa using Hole.holds_behind hfront
      apart := List.pairwise_singleton _ _ }
  | append hfirstFilled _ hfirst hsecond =>
    apply (hfirst hfront).append
    apply hsecond
    rw [List.length_append, hfront, hfirstFilled.length_eq]

end Encoded

/-! ### Instructions -/

namespace EncodingSite

variable (site : EncodingSite)

/-- The labels that are known can be completed to offsets of all labels. -/
theorem exists_filled_encode (instruction : Instruction Label) (operand : Operand) :
    ∃ final wide, Encoded.Filled (Hole.bytesFor final) site.offset (instruction.encode site operand)
      ((instruction.map final).bytesAt site.offset wide operand) := by
  refine ⟨fun label => (site.offsetOf? label).getD 0, site.takesWide instruction, ?_⟩
  apply Encoded.Filled.encode
  intro label target hlabel
  rw [hlabel, Option.getD_some]

theorem hasHoles_encode (instruction : Instruction Label) (operand : Operand) {front : Bytes}
    (hfront : front.length = site.offset) : (instruction.encode site operand).HasHoles front := by
  obtain ⟨final, wide, hfilled⟩ := site.exists_filled_encode instruction operand
  exact hfilled.hasHoles hfront

theorem length_encode_pos (instruction : Instruction Label) (operand : Operand) :
    0 < (instruction.encode site operand).bytes.length := by
  obtain ⟨final, wide, hfilled⟩ := site.exists_filled_encode instruction operand
  rw [← hfilled.length_eq]
  exact Instruction.length_bytesAt_pos ..

theorem le_length_encode_of_isBranch {instruction : Instruction Label}
    (hbranch : instruction.isBranch) (operand : Operand) :
    3 ≤ (instruction.encode site operand).bytes.length := by
  obtain ⟨final, wide, hfilled⟩ := site.exists_filled_encode instruction operand
  rw [← hfilled.length_eq]
  cases instruction with
  | branch condition label =>
    cases wide <;> simp [Instruction.bytesAt, farBranchHead, shortDistance]
  | _ => cases hbranch

theorem base_of_mem_encodeSwitchTarget {position : Nat} {label : Label} {hole : Hole}
    (hhole : hole ∈ (site.encodeSwitchTarget position label).holes) : hole.base = site.offset := by
  unfold encodeSwitchTarget at hhole
  split at hhole
  · cases hhole
  · rw [List.mem_singleton.1 hhole]

theorem mem_holes_switch {p : Hole → Prop} {head middle : Bytes} {otherwise : Encoded}
    {parts : List Encoded} (hotherwise : ∀ hole ∈ otherwise.holes, p hole)
    (hparts : ∀ part ∈ parts, ∀ hole ∈ part.holes, p hole) :
    ∀ hole ∈ (Encoded.ofBytes head ++ otherwise ++ Encoded.ofBytes middle ++
      Encoded.concat parts).holes, p hole := by
  intro hole hhole
  change hole ∈ (([] ++ otherwise.holes) ++ []) ++ parts.flatMap Encoded.holes at hhole
  rw [List.nil_append, List.append_nil] at hhole
  obtain hhole | hhole := List.mem_append.1 hhole
  · exact hotherwise hole hhole
  · obtain ⟨part, hpart, hhole⟩ := List.mem_flatMap.1 hhole
    exact hparts part hpart hole hhole

/-- Distances are from the opcode of the instruction, or from the jump in a far branch. -/
theorem base_of_mem_encode {instruction : Instruction Label} {operand : Operand} {hole : Hole}
    (hhole : hole ∈ (instruction.encode site operand).holes) :
    hole.base = site.offset ∨ instruction.isBranch ∧ hole.base = farBranchBase site.offset := by
  cases instruction with
  | branch condition label =>
    simp only [Instruction.encode, encodeBranch] at hhole
    split at hhole
    · split at hhole <;> cases hhole
    · split at hhole
      · rw [List.mem_singleton.1 hhole]
        exact .inr ⟨rfl, rfl⟩
      · rw [List.mem_singleton.1 hhole]
        exact .inl rfl
  | jump op label =>
    simp only [Instruction.encode, encodeJump] at hhole
    split at hhole
    · split at hhole <;> cases hhole
    · split at hhole <;> rw [List.mem_singleton.1 hhole] <;> exact .inl rfl
  | tableSwitch otherwise low high targets =>
    apply Or.inl
    refine mem_holes_switch (fun hole => site.base_of_mem_encodeSwitchTarget) ?_ hole hhole
    intro part hpart
    obtain ⟨⟨target, index⟩, -, rfl⟩ := List.mem_map.1 hpart
    exact fun hole => site.base_of_mem_encodeSwitchTarget
  | lookupSwitch otherwise cases =>
    apply Or.inl
    refine mem_holes_switch (fun hole => site.base_of_mem_encodeSwitchTarget) ?_ hole hhole
    intro part hpart hole hhole
    obtain ⟨⟨⟨key, target⟩, index⟩, -, rfl⟩ := List.mem_map.1 hpart
    exact site.base_of_mem_encodeSwitchTarget hhole
  | _ => cases hhole

end EncodingSite

namespace Layout

variable {wide : Std.HashSet Nat} {lines : List (CodeLine × Operand)} {endLabel : Option Label}

/-! ### The first lines -/

def ofFirst (wide : Std.HashSet Nat) (lines : List (CodeLine × Operand)) (count : Nat) :
    Except Error Layout :=
  addLines wide 0 (lines.take count) empty

theorem addLines_append_eq_ok_iff {index : Nat} {first second : List (CodeLine × Operand)}
    {layout final : Layout} :
    addLines wide index (first ++ second) layout = .ok final ↔
      ∃ middle, addLines wide index first layout = .ok middle ∧
        addLines wide (index + first.length) second middle = .ok final := by
  induction first generalizing index layout with
  | nil => simp [addLines]
  | cons line first ih =>
    obtain ⟨line, operand⟩ := line
    have hindex : index + (first.length + 1) = index + 1 + first.length := by omega
    simp only [List.cons_append, addLines, List.length_cons, hindex]
    cases layout.addLine wide index line operand with
    | error error => simp
    | ok next => exact ih

theorem ofFirst_length : ofFirst wide lines lines.length = addLines wide 0 lines empty := by
  rw [ofFirst, List.take_length]

theorem ofFirst_succ_eq_ok_iff {count : Nat} {line : CodeLine} {operand : Operand} {next : Layout}
    (hline : lines[count]? = some (line, operand)) :
    ofFirst wide lines (count + 1) = .ok next ↔
      ∃ before, ofFirst wide lines count = .ok before ∧
        before.addLine wide count line operand = .ok next := by
  have hcount : (lines.take count).length = count :=
    List.length_take_of_le (Nat.le_of_lt (List.getElem?_eq_some_iff.1 hline).1)
  rw [ofFirst, List.take_add_one, hline, Option.toList_some, addLines_append_eq_ok_iff, hcount,
    Nat.zero_add]
  refine exists_congr fun before => and_congr_right fun _ => ?_
  simp only [addLines]
  cases before.addLine wide count line operand <;> simp

/-- What holds at first and is kept by each line holds after so many lines. -/
theorem ofFirst_induction {p : Layout → Prop} (hempty : p empty)
    (hstep : ∀ count line operand before next, lines[count]? = some (line, operand) →
      ofFirst wide lines count = .ok before →
      before.addLine wide count line operand = .ok next → p before → p next)
    {count : Nat} {layout : Layout} (hlayout : ofFirst wide lines count = .ok layout) :
    p layout := by
  induction count generalizing layout with
  | zero =>
    cases hlayout
    exact hempty
  | succ count ih =>
    cases hline : lines[count]? with
    | none =>
      -- There are no more lines.
      have hend := List.getElem?_eq_none_iff.1 hline
      have hall : lines.take (count + 1) = lines.take count := by
        rw [List.take_of_length_le hend, List.take_of_length_le (Nat.le_succ_of_le hend)]
      rw [ofFirst, hall] at hlayout
      exact ih hlayout
    | some line =>
      obtain ⟨before, hbefore, hadd⟩ := (ofFirst_succ_eq_ok_iff hline).1 hlayout
      exact hstep count line.1 line.2 before layout hline hbefore hadd (ih hbefore)

/-- **One line.** What a line adds is encoded where the lines before it end. -/
theorem exists_site_of_addLine {layout next : Layout} {index : Nat} {line : CodeLine}
    {operand : Operand} (hadd : layout.addLine wide index line operand = .ok next) :
    layout.code.size ≤ CodeAttribute.maxLength ∧
      ∃ site : EncodingSite, site.index = index ∧ site.offset = layout.code.size ∧
        next.code.toList = layout.code.toList ++ (line.instruction.encode site operand).bytes ∧
        next.holes.toList = layout.holes.toList ++ (line.instruction.encode site operand).holes ∧
        next.frameOffsets.toList = layout.frameOffsets.toList ++
          if line.frame.isSome then [UInt16.ofNat layout.code.size] else [] := by
  obtain ⟨hsize, -, rfl⟩ := addLine_eq_ok_iff.1 hadd
  refine ⟨hsize, ⟨index, layout.code.size, fun label => (placed layout.placement line.label
    (UInt16.ofNat layout.code.size))[label]?, wide.contains index⟩, rfl, rfl, ?_, ?_, ?_⟩
  · simp [added]
  · simp [added]
  · cases hframe : line.frame.isSome <;> simp [added, hframe]

theorem size_lt_of_addLine {layout next : Layout} {index : Nat} {line : CodeLine}
    {operand : Operand} (hadd : layout.addLine wide index line operand = .ok next) :
    layout.code.size < next.code.size := by
  obtain ⟨-, site, -, -, hcode, -⟩ := exists_site_of_addLine hadd
  have hpos := site.length_encode_pos line.instruction operand
  rw [← Array.length_toList, ← Array.length_toList, hcode, List.length_append]
  omega

theorem isPrefix_of_addLines {rest : List (CodeLine × Operand)} {index : Nat}
    {layout final : Layout} (hfinal : addLines wide index rest layout = .ok final) :
    layout.code.toList <+: final.code.toList := by
  induction rest generalizing index layout with
  | nil =>
    cases hfinal
    exact List.prefix_refl _
  | cons first rest ih =>
    obtain ⟨line, operand⟩ := first
    rw [addLines] at hfinal
    split at hfinal
    · rename_i next hadd
      obtain ⟨-, site, -, -, hcode, -⟩ := exists_site_of_addLine hadd
      apply List.IsPrefix.trans _ (ih hfinal)
      rw [hcode]
      exact List.prefix_append _ _
    · cases hfinal

/-! ### Holes of the first lines -/

def encoded (layout : Layout) : Encoded :=
  ⟨layout.code.toList, layout.holes.toList⟩

theorem hasHoles_of_ofFirst {count : Nat} {layout : Layout}
    (hlayout : ofFirst wide lines count = .ok layout) : layout.encoded.HasHoles [] := by
  apply ofFirst_induction _ _ hlayout
  · exact Encoded.hasHoles_ofBytes [] []
  · intro count line operand before next _ _ hadd hbefore
    obtain ⟨-, site, -, hoffset, hcode, hholes, -⟩ := exists_site_of_addLine hadd
    have hencoded : next.encoded = before.encoded ++ line.instruction.encode site operand := by
      rw [encoded, hcode, hholes]
      rfl
    rw [hencoded]
    apply hbefore.append
    apply site.hasHoles_encode
    rw [hoffset, List.nil_append]
    exact Array.length_toList

/-- A hole is one that its own line has left, within the bytes of that line. -/
structure IsLeftBetween (wide : Std.HashSet Nat) (lines : List (CodeLine × Operand)) (hole : Hole)
    (before after : Layout) : Prop where
  before_eq : ofFirst wide lines hole.instruction = .ok before
  after_eq : ofFirst wide lines (hole.instruction + 1) = .ok after
  start_le : before.code.size ≤ hole.position
  end_le : hole.position + hole.width ≤ after.code.size
  base : hole.base = before.code.size ∨
    (∃ line operand, lines[hole.instruction]? = some (line, operand) ∧
      line.instruction.isBranch) ∧ hole.base = EncodingSite.farBranchBase before.code.size

/-- What a line leaves is within its bytes. -/
theorem isLeftBetween_of_addLine {count : Nat} {line : CodeLine} {operand : Operand}
    {before next : Layout} {site : EncodingSite} {hole : Hole}
    (hline : lines[count]? = some (line, operand)) (hbefore : ofFirst wide lines count = .ok before)
    (hadd : before.addLine wide count line operand = .ok next) (hindex : site.index = count)
    (hoffset : site.offset = before.code.size)
    (hcode : next.code.toList = before.code.toList ++ (line.instruction.encode site operand).bytes)
    (hhole : hole ∈ (line.instruction.encode site operand).holes) :
    IsLeftBetween wide lines hole before next := by
  obtain ⟨-, -, hinstruction, -⟩ := hole_of_mem_encode hhole
  have hholes := site.hasHoles_encode line.instruction operand
    (Array.length_toList.trans hoffset.symm)
  rw [hindex] at hinstruction
  exact {
    before_eq := by rw [hinstruction, hbefore]
    after_eq := by
      rw [hinstruction]
      exact (ofFirst_succ_eq_ok_iff hline).2 ⟨before, hbefore, hadd⟩
    start_le := hholes.start_le hole hhole
    end_le := by
      have hend := (hholes.holds hole hhole).end_le
      rwa [← hcode, Array.length_toList] at hend
    base := by
      rw [← hoffset, hinstruction]
      obtain hbase | ⟨hbranch, hbase⟩ := site.base_of_mem_encode hhole
      · exact .inl hbase
      · exact .inr ⟨⟨line, operand, hline, hbranch⟩, hbase⟩ }

theorem exists_isLeftBetween_of_ofFirst {count : Nat} {layout : Layout}
    (hlayout : ofFirst wide lines count = .ok layout) :
    ∀ hole ∈ layout.holes.toList, ∃ before after, IsLeftBetween wide lines hole before after ∧
      after.code.toList <+: layout.code.toList := by
  apply ofFirst_induction _ _ hlayout
  · intro hole hhole
    cases hhole
  · intro count line operand before next hline hbefore hadd hleft hole hhole
    obtain ⟨-, site, hindex, hoffset, hcode, hholes, -⟩ := exists_site_of_addLine hadd
    rw [hholes] at hhole
    obtain hhole | hhole := List.mem_append.1 hhole
    · obtain ⟨first, second, hbetween, hprefix⟩ := hleft hole hhole
      refine ⟨first, second, hbetween, hprefix.trans ?_⟩
      rw [hcode]
      exact List.prefix_append _ _
    · exact ⟨before, next, isLeftBetween_of_addLine hline hbefore hadd hindex hoffset hcode hhole,
        List.prefix_refl _⟩

/-! ### Frames of the first lines -/

structure FramesAscend (layout : Layout) : Prop where
  lt_size : ∀ offset ∈ layout.frameOffsets.toList, offset.toNat < layout.code.size
  pairwise : layout.frameOffsets.toList.Pairwise (· < ·)

theorem FramesAscend.addLine {layout next : Layout} {index : Nat} {line : CodeLine}
    {operand : Operand} (hframes : layout.FramesAscend)
    (hadd : layout.addLine wide index line operand = .ok next) : next.FramesAscend := by
  obtain ⟨hsize, site, -, -, -, -, hoffsets⟩ := exists_site_of_addLine hadd
  have hlt := size_lt_of_addLine hadd
  have hnew : (UInt16.ofNat layout.code.size).toNat = layout.code.size :=
    UInt16.toNat_ofNat_of_lt' (Nat.lt_succ_of_le hsize)
  have hold : ∀ offset ∈ layout.frameOffsets.toList, offset.toNat < next.code.size :=
    fun offset hoffset => Nat.lt_trans (hframes.lt_size offset hoffset) hlt
  cases hframe : line.frame.isSome with
  | false =>
    have hsame : next.frameOffsets.toList = layout.frameOffsets.toList := by
      rw [hoffsets, hframe]
      exact List.append_nil _
    exact ⟨hsame ▸ hold, hsame ▸ hframes.pairwise⟩
  | true =>
    have hadded : next.frameOffsets.toList =
        layout.frameOffsets.toList ++ [UInt16.ofNat layout.code.size] := by
      rw [hoffsets, hframe]
      rfl
    exact {
      lt_size := by
        intro offset hoffset
        rw [hadded] at hoffset
        obtain hoffset | hoffset := List.mem_append.1 hoffset
        · exact hold offset hoffset
        · rw [List.mem_singleton.1 hoffset, hnew]
          exact hlt
      pairwise := by
        rw [hadded]
        apply List.pairwise_append.2
        refine ⟨hframes.pairwise, List.pairwise_singleton _ _, ?_⟩
        intro offset hoffset last hlast
        rw [List.mem_singleton.1 hlast, UInt16.lt_iff_toNat_lt, hnew]
        exact hframes.lt_size offset hoffset }

theorem framesAscend_of_ofFirst {count : Nat} {layout : Layout}
    (hlayout : ofFirst wide lines count = .ok layout) : layout.FramesAscend := by
  apply ofFirst_induction _ _ hlayout
  · exact ⟨fun _ hoffset => (by cases hoffset), List.Pairwise.nil⟩
  · intro count line operand before next _ _ hadd hframes
    exact hframes.addLine hadd

/-- From one offset to a later one, nothing is taken from what is too small. -/
theorem toNat_sub_sub_one {previous offset : UInt16} (hlt : previous < offset) :
    (offset - previous - 1).toNat + 1 + previous.toNat = offset.toNat := by
  rw [UInt16.lt_iff_toNat_lt] at hlt
  have hle : previous ≤ offset := UInt16.le_iff_toNat_le.2 (Nat.le_of_lt hlt)
  have hsub : (offset - previous).toNat = offset.toNat - previous.toNat :=
    UInt16.toNat_sub_of_le _ _ hle
  have hone : (1 : UInt16) ≤ offset - previous := by
    rw [UInt16.le_iff_toNat_le, hsub]
    change 1 ≤ _
    omega
  rw [UInt16.toNat_sub_of_le _ _ hone, hsub]
  change offset.toNat - previous.toNat - 1 + 1 + previous.toNat = offset.toNat
  omega

/-! ### Attempts -/

/-- Everything in a layout is where it belongs: each hole was left by its own line, within the bytes
of that line, holds its placeholder and is apart from the others, and from each frame to a later one
the number of bytes between them can be counted. -/
structure InPlace (wide : Std.HashSet Nat) (lines : List (CodeLine × Operand))
    (layout : Layout) : Prop where
  own : ∀ hole ∈ layout.holes.toList, ∃ before after,
    IsLeftBetween wide lines hole before after ∧ after.code.toList <+: layout.code.toList
  placeholder : ∀ hole ∈ layout.holes.toList, hole.Holds layout.code.toList hole.placeholder
  apart : layout.holes.toList.Pairwise Hole.EndsBefore
  frames : layout.frameOffsets.toList.Pairwise fun previous offset =>
    previous < offset ∧ (offset - previous - 1).toNat + 1 + previous.toNat = offset.toNat

theorem inPlace_of_ofFirst {count : Nat} {layout : Layout}
    (hlayout : ofFirst wide lines count = .ok layout) : InPlace wide lines layout where
  own := exists_isLeftBetween_of_ofFirst hlayout
  placeholder := (hasHoles_of_ofFirst hlayout).holds
  apart := (hasHoles_of_ofFirst hlayout).apart
  frames := (framesAscend_of_ofFirst hlayout).pairwise.imp fun hlt => ⟨hlt, toNat_sub_sub_one hlt⟩

theorem inPlace_of_ofLines {layout : Layout} (hlayout : ofLines wide lines endLabel = .ok layout) :
    InPlace wide lines layout := by
  obtain ⟨before, hbefore, -, -, rfl⟩ := ofLines_eq_ok_iff.1 hlayout
  rw [← ofFirst_length] at hbefore
  obtain ⟨hown, hplaceholder, hapart, hframes⟩ := inPlace_of_ofFirst hbefore
  exact ⟨hown, hplaceholder, hapart, hframes⟩

theorem InPlace.partlyFilled {layout : Layout} (hplace : InPlace wide lines layout)
    {done rest : List Hole} {current : Array UInt8} (hholes : layout.holes.toList = done ++ rest)
    (hdone : fillHoles layout.placement layout.code.size done layout.code =
      .ok (.filled current)) :
    PartlyFilled (Hole.bytesFor layout.placement.final) layout.code done rest current := by
  obtain ⟨-, rfl⟩ := fillHoles_eq_filled_iff.1 hdone
  have hapart := hplace.apart
  rw [hholes] at hapart
  have hstart : PartlyFilled (Hole.bytesFor layout.placement.final) layout.code []
      (done ++ rest) layout.code := {
    size_eq := rfl
    filled := fun _ hhole => (by cases hhole)
    unfilled := fun hole hhole => hplace.placeholder hole (hholes ▸ hhole)
    unchanged := fun _ _ => rfl }
  exact hstart.fillAll hapart (Hole.length_bytesFor _)

/-- In code that is not too long, a branch has room for the jump it may need. -/
theorem farBranchBase_eq_of_ofLines {layout before : Layout} {index : Nat} {line : CodeLine}
    {operand : Operand} (hlayout : ofLines wide lines endLabel = .ok layout)
    (hsize : layout.code.size ≤ CodeAttribute.maxLength)
    (hline : lines[index]? = some (line, operand)) (hbranch : line.instruction.isBranch)
    (hbefore : ofFirst wide lines index = .ok before) :
    EncodingSite.farBranchBase before.code.size = before.code.size + 3 := by
  obtain ⟨last, hlast, -, -, rfl⟩ := ofLines_eq_ok_iff.1 hlayout
  rw [← List.take_append_drop (index + 1) lines, addLines_append_eq_ok_iff] at hlast
  obtain ⟨after, hafter, hlast⟩ := hlast
  obtain ⟨before', hbefore', hadd⟩ := (ofFirst_succ_eq_ok_iff hline).1 hafter
  cases hbefore.symm.trans hbefore'
  -- The branch is within the code, and has three bytes even if it is short.
  obtain ⟨-, site, -, -, hcode, -⟩ := exists_site_of_addLine hadd
  have hthree := site.le_length_encode_of_isBranch hbranch operand
  have hend := (isPrefix_of_addLines hlast).length_le
  rw [hcode, List.length_append, Array.length_toList, Array.length_toList] at hend
  apply EncodingSite.farBranchBase_of_le
  change last.code.size ≤ 65535 at hsize
  omega

end Layout

namespace Code

theorem exists_attempt_of_assemble {code : Code} {pool final : Pool} {bytecode : CodeAttribute}
    (hassemble : code.assemble.run pool = (.ok bytecode, final)) :
    ∃ operands tries wide layout filled,
      (putOperands code.lines).run pool = (.ok operands, final) ∧
      Layout.Retried (code.lines.zip operands) code.endLabel tries wide ∧
      Layout.ofLines wide (code.lines.zip operands) code.endLabel = .ok layout ∧
      fillHoles layout.placement layout.code.size layout.holes.toList layout.code =
        .ok (.filled filled) ∧
      bytecode.code = filled.toList ∧ filled.size ≤ CodeAttribute.maxLength := by
  obtain ⟨operands, between, hput, hlayOut⟩ := PoolM.exists_of_run_bind hassemble
  rw [PoolM.run_lift] at hlayOut
  obtain ⟨hbytecode, rfl⟩ := Prod.mk.inj hlayOut
  obtain ⟨settled, hsettle, -, hsize, -, -, rfl⟩ := layOut_eq_ok_iff.1 hbytecode
  obtain ⟨tries, wide, hretried, hended⟩ := Layout.Retried.first.exists_ended
  rw [hsettle] at hended
  obtain ⟨layout, hlayout, hfill⟩ := Layout.exists_fillHoles_of_attempt hended
  exact ⟨operands, tries, wide, layout, settled.code, hput, hretried, hlayout, hfill, rfl, hsize⟩

theorem exists_operand_of_putOperands {lines : List CodeLine} {pool final : Pool}
    {operands : List Operand} (hput : (putOperands lines).run pool = (.ok operands, final))
    {index : Nat} {line : CodeLine} (hline : lines[index]? = some line) :
    ∃ operand, (lines.zip operands)[index]? = some (line, operand) := by
  have hlength : lines.length = operands.length := (operandsIn_of_putOperands hput).length_eq
  have hindex : index < operands.length := hlength ▸ (List.getElem?_eq_some_iff.1 hline).1
  refine ⟨operands[index], ?_⟩
  rw [List.getElem?_zip_eq_some]
  exact ⟨hline, List.getElem?_eq_getElem hindex⟩

/-- **Holes in place.** Whatever the operands of lines are and whichever lines have to be wide,
everything is in place after each line. When holes are filled one after the other, those that are
done hold their distances, the others still hold their placeholders, and no other byte has changed.
If code is assembled, its last attempt was one in which no jump of a far branch is past the largest
offset. -/
theorem holes_in_place (code : Code) :
    (∀ operands wide count layout,
      Layout.ofFirst wide (code.lines.zip operands) count = .ok layout →
        layout.InPlace wide (code.lines.zip operands)) ∧
    (∀ operands wide layout,
      Layout.ofLines wide (code.lines.zip operands) code.endLabel = .ok layout →
        layout.InPlace wide (code.lines.zip operands) ∧
        ∀ done rest current, layout.holes.toList = done ++ rest →
          fillHoles layout.placement layout.code.size done layout.code = .ok (.filled current) →
          PartlyFilled (Hole.bytesFor layout.placement.final) layout.code done rest current ∧
            fillHoles layout.placement layout.code.size layout.holes.toList layout.code =
              fillHoles layout.placement layout.code.size rest current) ∧
    (∀ pool bytecode final, code.assemble.run pool = (.ok bytecode, final) →
      ∃ operands tries wide layout filled,
        (putOperands code.lines).run pool = (.ok operands, final) ∧
        Layout.Retried (code.lines.zip operands) code.endLabel tries wide ∧
        Layout.ofLines wide (code.lines.zip operands) code.endLabel = .ok layout ∧
        fillHoles layout.placement layout.code.size layout.holes.toList layout.code =
          .ok (.filled filled) ∧ bytecode.code = filled.toList ∧
        ∀ index line before, code.lines[index]? = some line → line.instruction.isBranch →
          Layout.ofFirst wide (code.lines.zip operands) index = .ok before →
          EncodingSite.farBranchBase before.code.size = before.code.size + 3) := by
  refine ⟨?_, ?_, ?_⟩
  · intro operands wide count layout hlayout
    exact Layout.inPlace_of_ofFirst hlayout
  · intro operands wide layout hlayout
    have hplace := Layout.inPlace_of_ofLines hlayout
    refine ⟨hplace, ?_⟩
    intro done rest current hholes hdone
    refine ⟨hplace.partlyFilled hholes hdone, ?_⟩
    rw [hholes]
    exact fillHoles_append hdone
  · intro pool bytecode final hassemble
    obtain ⟨operands, tries, wide, layout, filled, hput, hretried, hlayout, hfill, hbytecode,
      hsize⟩ := exists_attempt_of_assemble hassemble
    refine ⟨operands, tries, wide, layout, filled, hput, hretried, hlayout, hfill, hbytecode, ?_⟩
    intro index line before hline hbranch hbefore
    have hpartly := (Layout.inPlace_of_ofLines hlayout).partlyFilled (List.append_nil _).symm hfill
    rw [hpartly.size_eq] at hsize
    obtain ⟨operand, hoperand⟩ := exists_operand_of_putOperands hput hline
    exact Layout.farBranchBase_eq_of_ofLines hlayout hsize hoperand hbranch hbefore

theorem mem_holes_of_branch {wide : Std.HashSet Nat} {lines : List (CodeLine × Operand)}
    {endLabel : Option Label} {offsets : Nat → Nat} {layout : Layout}
    (hcomplete : Layout.Complete wide lines endLabel offsets layout) {index : Nat}
    {line : CodeLine} {operand : Operand} {condition : Condition} {label : Label}
    (hline : lines[index]? = some (line, operand))
    (hbranch : line.instruction = .branch condition label)
    (hunknown : (Layout.marksOf lines endLabel).offsetOf? offsets (index + 1) label = none)
    (hwide : wide.contains index) :
    ⟨index, label, EncodingSite.farBranchBase (offsets index), offsets index + 4, true⟩ ∈
      layout.holes.toList := by
  apply hcomplete.mem_holes_iff.2
  refine ⟨index, line, operand, hline, ?_⟩
  rw [hbranch]
  simp only [Instruction.encode, EncodingSite.encodeBranch, Layout.siteAt, hunknown, hwide, if_true,
    List.mem_singleton]

theorem Shrinking.mem_holes_of_settled {wide : Std.HashSet Nat} {offsets : Nat → Nat}
    {layout : Layout} (hsettled : Layout.Settled wide lines none offsets layout)
    (hwide : wide.contains 0) : ⟨0, ⟨0⟩, 3, 4, true⟩ ∈ layout.holes.toList := by
  have hunknown : (Layout.marksOf lines none).offsetOf? offsets 1 ⟨0⟩ = none := by
    rw [marksOf_lines]
    apply Marks.offsetOf?_eq_none_iff.2
    intro place hplace
    rw [placeOf?_first] at hplace
    cases hplace
    decide
  have hmem := mem_holes_of_branch hsettled.toComplete (getElem?_zip (by decide)) rfl hunknown hwide
  rwa [hsettled.hasOffsets.zero] at hmem

/-- The last attempt has a hole of four bytes in a branch that turned out to be far. -/
theorem holes_in_place_shrinking :
    ∃ bytecode tries wide layout filled,
      shrinking.assemble.run Pool.empty = (.ok bytecode, Pool.empty) ∧
      Layout.Retried Shrinking.lines none tries wide ∧
      Layout.ofLines wide Shrinking.lines none = .ok layout ∧
      layout.InPlace wide Shrinking.lines ∧ ⟨0, ⟨0⟩, 3, 4, true⟩ ∈ layout.holes.toList ∧
      fillHoles layout.placement layout.code.size layout.holes.toList layout.code =
        .ok (.filled filled) ∧
      PartlyFilled (Hole.bytesFor layout.placement.final) layout.code layout.holes.toList []
        filled := by
  obtain ⟨-, hattempts, hassembled⟩ := holes_in_place shrinking
  obtain ⟨bytecode, -, -, -, hassemble, -⟩ := Shrinking.exists_laidOut
  obtain ⟨operands, tries, wide, layout, filled, hput, hretried, hlayout, hfill, -, -⟩ :=
    hassembled Pool.empty bytecode Pool.empty hassemble
  obtain rfl : operands = List.replicate 32766 ⟨0, 0⟩ :=
    Except.ok.inj (Prod.mk.inj (hput.symm.trans Shrinking.run_putOperands)).1
  obtain ⟨hplace, hfilling⟩ := hattempts _ wide layout hlayout
  have hpartly := (hfilling _ [] filled (List.append_nil _).symm hfill).1
  refine ⟨bytecode, tries, wide, layout, filled, hassemble, hretried, hlayout, hplace, ?_, hfill,
    hpartly⟩
  obtain ⟨offsets, hsettled, -⟩ := Layout.exists_settled_of_fillHoles hlayout hfill
  obtain ⟨hwide, -⟩ := Shrinking.both_wide_of_settled hretried.attempted hsettled
  exact Shrinking.mem_holes_of_settled hsettled hwide

end Code

end JvmClass
