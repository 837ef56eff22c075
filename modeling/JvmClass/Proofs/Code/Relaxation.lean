import JvmClass.Proofs.Code.Settling
import Mathlib.Algebra.BigOperators.Group.List.Basic
import Mathlib.Algebra.Ring.Nat

/-!
# Attempts to lay out lines

Lines are laid out again and again, with one more branch or jump wide each time, until all holes can
be filled. A switch can become smaller when it is moved, but nothing else can. So without switches no
distance becomes smaller from one attempt to the next, and the lines that are wide in the end are
those that are wide in every attempt that works. The same goes for lines some of which were taken
apart, each into a branch and a jump: what had to be wide before still has to be.
-/

namespace JvmClass

theorem fitsShort_iff {distance : Int} :
    fitsShort distance ↔ -32768 ≤ distance ∧ distance ≤ 32767 := by
  rw [fitsShort, Bool.and_eq_true, decide_eq_true_iff, decide_eq_true_iff]

theorem fitsShort_eq_false_iff {distance : Int} :
    fitsShort distance = false ↔ distance < -32768 ∨ 32767 < distance := by
  rw [← Bool.not_eq_true, fitsShort_iff]
  omega

namespace Layout

/-! ### Forms of lines -/

/-- What the size of a line depends on, if it is not a switch. -/
inductive Form where
  | fixed (size : Nat)
  /-- A branch or jump to a place, and the size that it has if it is wide. -/
  | toward (place wideSize : Nat)

namespace Form

/-- Whether a branch or jump is wide: if the place is not ahead, when that is too far, and else when
it may not be short. -/
def isWide (offsets : Nat → Nat) (wide : Std.HashSet Nat) (index place : Nat) : Bool :=
  if place ≤ index then !fitsShort ((offsets place : Int) - offsets index) else wide.contains index

def size (offsets : Nat → Nat) (wide : Std.HashSet Nat) (index : Nat) : Form → Nat
  | fixed size => size
  | toward place wideSize => if isWide offsets wide index place then wideSize else 3

theorem isWide_of_ahead {offsets : Nat → Nat} {wide : Std.HashSet Nat} {index place : Nat}
    (hahead : index < place) : isWide offsets wide index place = wide.contains index :=
  if_neg (Nat.not_le.2 hahead)

theorem isWide_of_behind {offsets : Nat → Nat} {wide : Std.HashSet Nat} {index place : Nat}
    (hbehind : place ≤ index) :
    isWide offsets wide index place = !fitsShort ((offsets place : Int) - offsets index) :=
  if_pos hbehind

theorem three_le_size (offsets : Nat → Nat) (wide : Std.HashSet Nat) (index place : Nat)
    {wideSize : Nat} (hsize : 3 ≤ wideSize) : 3 ≤ (toward place wideSize).size offsets wide index := by
  rw [size]
  split
  · exact hsize
  · exact Nat.le_refl 3

end Form

/-- The first lines, of the given forms, stand one after the other. -/
def Spaced (forms : Nat → Form) (count : Nat) (wide : Std.HashSet Nat) (offsets : Nat → Nat) :
    Prop :=
  ∀ index < count, offsets (index + 1) = offsets index + (forms index).size offsets wide index

theorem Spaced.offsets_le {forms : Nat → Form} {count : Nat} {wide : Std.HashSet Nat}
    {offsets : Nat → Nat} (hspaced : Spaced forms count wide offsets) {first last : Nat}
    (hfirst : first ≤ last) (hlast : last ≤ count) : offsets first ≤ offsets last := by
  induction hfirst with
  | refl => exact Nat.le_refl _
  | @step last _ ih =>
    rw [Nat.succ_eq_add_one, hspaced last hlast]
    exact Nat.le_add_right_of_le (ih (Nat.le_of_succ_le hlast))

/-! ### Taking lines apart -/

/-- A line is one line of other forms or two of them, from the index `split index` on. What it goes
toward, the last of these goes toward. -/
inductive Refines (coarse finer : Nat → Form) (split : Nat → Nat) (index : Nat) : Prop
  | fixed {size : Nat} (hcoarse : coarse index = .fixed size)
      (hnext : split (index + 1) = split index + 1) (hform : finer (split index) = .fixed size)
  | same {place wideSize : Nat} (hcoarse : coarse index = .toward place wideSize)
      (hnext : split (index + 1) = split index + 1)
      (hform : finer (split index) = .toward (split place) wideSize) (hsize : 3 ≤ wideSize)
  | apart {place wideSize skip first rest : Nat} (hcoarse : coarse index = .toward place wideSize)
      (hnext : split (index + 1) = split index + 2)
      (hfirst : finer (split index) = .toward skip first) (hthree : 3 ≤ first)
      (hform : finer (split index + 1) = .toward (split place) rest) (hrest : 3 ≤ rest)
      (hsize : wideSize ≤ 3 + rest)

/-- Lines, and the same lines taken apart, each with offsets. What is wide of the first is wide of
the second. -/
structure Compared (coarse finer : Nat → Form) (split : Nat → Nat) (count : Nat)
    (wide finerWide : Std.HashSet Nat) (offsets finerOffsets : Nat → Nat) : Prop where
  spaced : Spaced coarse count wide offsets
  finerSpaced : Spaced finer (split count) finerWide finerOffsets
  refines : ∀ index < count, Refines coarse finer split index
  ahead : ∀ index < count, ∀ place wideSize, coarse index = .toward place wideSize →
    index < place → split (index + 1) ≤ split place
  wide_of_wide : ∀ index, wide.contains index → finerWide.contains (split (index + 1) - 1)

namespace Compared

variable {coarse finer : Nat → Form} {split : Nat → Nat} {count : Nat}
  {wide finerWide : Std.HashSet Nat} {offsets finerOffsets : Nat → Nat}

theorem split_lt (hcompared : Compared coarse finer split count wide finerWide offsets finerOffsets)
    {index : Nat} (hindex : index < count) : split index < split (index + 1) := by
  cases hcompared.refines index hindex <;> omega

theorem split_le (hcompared : Compared coarse finer split count wide finerWide offsets finerOffsets)
    {first last : Nat} (hfirst : first ≤ last) (hlast : last ≤ count) :
    split first ≤ split last := by
  induction hfirst with
  | refl => exact Nat.le_refl _
  | @step last _ ih =>
    exact Nat.le_trans (ih (Nat.le_of_succ_le hlast)) (Nat.le_of_lt (hcompared.split_lt hlast))

/-- What is wide is still wide when lines are taken apart, if the distances to places behind it are
not smaller. -/
theorem isWide_of_isWide
    (hcompared : Compared coarse finer split count wide finerWide offsets finerOffsets)
    {index place wideSize carrier : Nat} (hindex : index < count)
    (hform : coarse index = .toward place wideSize)
    (hgaps : ∀ first ≤ index,
      offsets index + finerOffsets (split first) ≤ finerOffsets (split index) + offsets first)
    (hcarrier : carrier + 1 = split (index + 1)) (hsplit : split index ≤ carrier)
    (hoffset : finerOffsets (split index) ≤ finerOffsets carrier)
    (hwide : Form.isWide offsets wide index place) :
    Form.isWide finerOffsets finerWide carrier (split place) := by
  by_cases hbehind : place ≤ index
  · have hgap := hgaps place hbehind
    have hle := hcompared.split_le hbehind (Nat.le_of_lt hindex)
    have hbefore := hcompared.spaced.offsets_le hbehind (Nat.le_of_lt hindex)
    rw [Form.isWide_of_behind hbehind, Bool.not_eq_true', fitsShort_eq_false_iff] at hwide
    rw [Form.isWide_of_behind (Nat.le_trans hle hsplit), Bool.not_eq_true', fitsShort_eq_false_iff]
    omega
  · have hahead := hcompared.ahead index hindex place wideSize hform (Nat.not_le.1 hbehind)
    rw [Form.isWide_of_ahead (Nat.not_le.1 hbehind)] at hwide
    rw [Form.isWide_of_ahead (by omega)]
    have hcontains := hcompared.wide_of_wide index hwide
    rwa [← hcarrier, Nat.add_sub_cancel] at hcontains

/-- **One line.** A line is not larger than what it is taken apart into. -/
theorem size_le (hcompared : Compared coarse finer split count wide finerWide offsets finerOffsets)
    {index : Nat} (hindex : index < count)
    (hgaps : ∀ first ≤ index,
      offsets index + finerOffsets (split first) ≤ finerOffsets (split index) + offsets first) :
    finerOffsets (split index) + (coarse index).size offsets wide index ≤
      finerOffsets (split (index + 1)) := by
  have hlast := hcompared.split_le hindex (Nat.le_refl count)
  cases hcompared.refines index hindex with
  | fixed hcoarse hnext hform =>
    rw [hnext] at hlast
    rw [hcoarse, hnext, hcompared.finerSpaced _ hlast, hform]
    exact Nat.le_refl _
  | @same place wideSize hcoarse hnext hform hsize =>
    rw [hnext] at hlast
    have hwide := hcompared.isWide_of_isWide hindex hcoarse hgaps hnext.symm (Nat.le_refl _)
      (Nat.le_refl _)
    rw [hcoarse, hnext, hcompared.finerSpaced _ hlast, hform]
    refine Nat.add_le_add_left ?_ _
    rw [Form.size]
    split
    · rename_i hcoarseWide
      refine Nat.le_of_eq ?_
      rw [Form.size, if_pos (hwide hcoarseWide)]
    · exact Form.three_le_size _ _ _ _ hsize
  | @apart place wideSize skip first rest hcoarse hnext hfirst hthree hform hrest hsize =>
    rw [hnext] at hlast
    have hmiddle := hcompared.finerSpaced (split index) (by omega)
    have hthree := Form.three_le_size finerOffsets finerWide (split index) skip hthree
    rw [hfirst] at hmiddle
    have hwide := hcompared.isWide_of_isWide hindex hcoarse hgaps hnext.symm (Nat.le_succ _)
      (by omega)
    rw [hcoarse, hnext, hcompared.finerSpaced _ hlast, hform]
    have hpart : Form.size offsets wide index (.toward place wideSize) ≤
        3 + Form.size finerOffsets finerWide (split index + 1) (.toward (split place) rest) := by
      rw [Form.size]
      split
      · rename_i hcoarseWide
        rw [Form.size, if_pos (hwide hcoarseWide)]
        exact hsize
      · exact Nat.le_add_right 3 _
    omega

/-- **All lines.** No distance becomes smaller when lines are taken apart. -/
theorem gap_le (hcompared : Compared coarse finer split count wide finerWide offsets finerOffsets)
    {first last : Nat} (hfirst : first ≤ last) (hlast : last ≤ count) :
    offsets last + finerOffsets (split first) ≤ finerOffsets (split last) + offsets first := by
  induction last generalizing first with
  | zero =>
    obtain rfl : first = 0 := Nat.le_zero.1 hfirst
    omega
  | succ last ih =>
    have hgaps := fun first hfirst => @ih first hfirst (Nat.le_of_succ_le hlast)
    obtain hlt | rfl := Nat.lt_or_eq_of_le hfirst
    · have hgap := hgaps first (Nat.le_of_lt_succ hlt)
      have hsize := hcompared.size_le hlast hgaps
      have hnext := hcompared.spaced last hlast
      omega
    · omega

/-- What is too far from its target still is when lines are taken apart, so it has to be wide
there. -/
theorem wide_of_far
    (hcompared : Compared coarse finer split count wide finerWide offsets finerOffsets)
    {index place wideSize : Nat} (hindex : index < count)
    (hcoarse : coarse index = .toward place wideSize) (hahead : index < place)
    (hplace : place ≤ count) (hnarrow : wide.contains index = false)
    (hfar : fitsShort ((offsets place : Int) - offsets index) = false)
    (hreaches : ∀ carrier < split count, ∀ target size, finer carrier = .toward target size →
      carrier < target → finerWide.contains carrier = false →
        fitsShort ((finerOffsets target : Int) - finerOffsets carrier)) :
    finerWide.contains (split (index + 1) - 1) := by
  have hlast : split (index + 1) ≤ split count := hcompared.split_le hindex (Nat.le_refl count)
  have hsplit : split (index + 1) ≤ split place := hcompared.split_le hahead hplace
  have hordered := hcompared.spaced.offsets_le (Nat.le_of_lt hahead) hplace
  rw [fitsShort_eq_false_iff] at hfar
  refine Bool.of_not_eq_false fun hfiner => ?_
  cases hcompared.refines index hindex with
  | fixed hother => cases hcoarse.symm.trans hother
  | same hother hnext hform hsize =>
    cases hcoarse.symm.trans hother
    rw [hnext, Nat.add_sub_cancel] at hfiner
    have hreach := fitsShort_iff.1 (hreaches _ (by omega) _ _ hform (by omega) hfiner)
    have hgap := hcompared.gap_le (Nat.le_of_lt hahead) hplace
    omega
  | @apart _ _ skip first rest hother hnext hfirst hthree hform hrest hsize =>
    cases hcoarse.symm.trans hother
    rw [hnext] at hfiner
    have hreach := fitsShort_iff.1 (hreaches _ (by omega) _ _ hform (by omega) hfiner)
    have hgap := hcompared.gap_le (Nat.succ_le_of_lt hahead) hplace
    have hsmall := hcompared.spaced index hindex
    rw [hcoarse, Form.size, Form.isWide_of_ahead hahead, hnarrow, if_neg Bool.false_ne_true]
      at hsmall
    have hjump : finerOffsets (split index + 2) = _ :=
      hcompared.finerSpaced (split index + 1) (by omega)
    have hthree := Form.three_le_size finerOffsets finerWide (split index + 1) (split place) hrest
    rw [hform] at hjump
    rw [Nat.succ_eq_add_one, hnext] at hgap
    omega

end Compared

end Layout

/-! ### Forms of encoded lines -/

/-- Whether an instruction is filled up to a multiple of four bytes. -/
def Instruction.isSwitch {τ : Type} : Instruction τ → Bool
  | tableSwitch .. | lookupSwitch .. => true
  | _ => false

def Instruction.maxSize {τ : Type} : Instruction τ → Nat
  | plain _ => 1
  | pushByte _ | newArray _ => 2
  | pushShort _ | load _ | onField .. | onClass .. => 3
  | invokeVirtual _ | invokeSpecial .. | invokeStatic .. => 3
  | onVariable .. | multiNewArray .. => 4
  | jump .. | invokeInterface _ | invokeDynamic _ => 5
  | increment .. => 6
  | branch .. => 8
  | tableSwitch _ _ _ targets => 16 + 4 * targets.length
  | lookupSwitch _ cases => 12 + 8 * cases.length

namespace EncodingSite

theorem length_encodeBranch (site : EncodingSite) (condition : Condition) (label : Label) :
    (site.encodeBranch condition label).bytes.length = if site.isWideTo label then 8 else 3 := by
  unfold encodeBranch isWideTo
  cases site.offsetOf? label with
  | some target => cases hfits : fitsShort (distance site.offset target) <;> simp [hfits] <;> rfl
  | none => cases site.wide <;> rfl

theorem length_encodeJump (site : EncodingSite) (op : JumpOp) (label : Label) :
    (site.encodeJump op label).bytes.length = if site.isWideTo label then 5 else 3 := by
  unfold encodeJump isWideTo
  cases site.offsetOf? label with
  | some target => cases hfits : fitsShort (distance site.offset target) <;> simp [hfits] <;> rfl
  | none => cases site.wide <;> rfl

theorem length_encodeSwitchTarget (site : EncodingSite) (position : Nat) (label : Label) :
    (site.encodeSwitchTarget position label).bytes.length = 4 := by
  unfold encodeSwitchTarget
  cases site.offsetOf? label <;> rfl

theorem length_encodeTableSwitch (site : EncodingSite) (otherwise : Label) (low high : Int32)
    (targets : List Label) :
    (site.encodeTableSwitch otherwise low high targets).bytes.length =
      13 + (3 - site.offset % 4) + 4 * targets.length := by
  change (((_ :: site.padding) ++ _ ++ (Bytes.ofInt32 low ++ Bytes.ofInt32 high)) ++
    (targets.zipIdx.map _).flatMap Encoded.bytes).length = _
  simp only [List.length_append, List.length_cons, length_encodeSwitchTarget, padding,
    List.length_replicate, Bytes.length_ofInt32, List.length_flatMap, List.map_map,
    Function.comp_def, List.map_const', List.length_zipIdx, List.sum_replicate_nat]
  omega

theorem length_encodeLookupSwitch (site : EncodingSite) (otherwise : Label)
    (cases : List (Int32 × Label)) :
    (site.encodeLookupSwitch otherwise cases).bytes.length =
      9 + (3 - site.offset % 4) + 8 * cases.length := by
  have hcase : ∀ item : (Int32 × Label) × Nat, (Encoded.bytes (.ofBytes (Bytes.ofInt32 item.1.1) ++
      site.encodeSwitchTarget (site.switchStart + 8 + 8 * item.2 + 4) item.1.2)).length = 8 := by
    intro item
    change (Bytes.ofInt32 _ ++ _).length = 8
    rw [List.length_append, Bytes.length_ofInt32, length_encodeSwitchTarget]
  change (((_ :: site.padding) ++ _ ++ Bytes.bigEndian 4 _) ++
    (cases.zipIdx.map _).flatMap Encoded.bytes).length = _
  simp only [List.length_append, List.length_cons, length_encodeSwitchTarget, padding,
    List.length_replicate, Bytes.length_bigEndian, List.length_flatMap, List.map_map,
    Function.comp_def, hcase, List.map_const', List.length_zipIdx, List.sum_replicate_nat]
  omega

end EncodingSite

theorem Instruction.length_encode_le (site : EncodingSite) (operand : Operand)
    (instruction : Instruction Label) :
    (instruction.encode site operand).bytes.length ≤ instruction.maxSize := by
  cases instruction with
  | branch condition label =>
    rw [encode, EncodingSite.length_encodeBranch, maxSize]
    split <;> decide
  | jump op label =>
    rw [encode, EncodingSite.length_encodeJump, maxSize]
    split <;> decide
  | tableSwitch otherwise low high targets =>
    rw [encode, EncodingSite.length_encodeTableSwitch, maxSize]
    omega
  | lookupSwitch otherwise cases =>
    rw [encode, EncodingSite.length_encodeLookupSwitch, maxSize]
    omega
  | load constant =>
    change (constant.encodeLoad operand.index).length ≤ 3
    unfold Loadable.encodeLoad
    split_ifs <;> simp [Bytes.length_ofUInt16]
  | onVariable op index =>
    change (op.encode index).length ≤ 4
    unfold VariableOp.encode
    split_ifs <;> simp [Bytes.length_ofUInt16]
  | increment index amount =>
    change (encodeIncrement index amount).length ≤ 6
    unfold encodeIncrement
    split_ifs <;> simp [Bytes.length_ofUInt16, Bytes.length_ofInt16, Bytes.ofInt8]
  | _ => exact Nat.le_refl _

namespace Layout

variable {wide : Std.HashSet Nat} {lines : List (CodeLine × Operand)} {marks : Marks}
  {endLabel : Option Label} {offsets : Nat → Nat}

def formOf (marks : Marks) (operand : Operand) : Instruction Label → Form
  | .branch _ label => .toward ((marks.placeOf? label).getD marks.length) 8
  | .jump _ label => .toward ((marks.placeOf? label).getD marks.length) 5
  | instruction => .fixed (instruction.encode ⟨0, 0, fun _ => none, false⟩ operand).bytes.length

def formAt (lines : List (CodeLine × Operand)) (marks : Marks) (index : Nat) : Form :=
  match lines[index]? with
  | some (line, operand) => formOf marks operand line.instruction
  | none => .fixed 0

theorem formAt_cases (lines : List (CodeLine × Operand)) (marks : Marks) (index : Nat) :
    (∃ size, formAt lines marks index = .fixed size) ∨
      ∃ place wideSize, formAt lines marks index = .toward place wideSize ∧ 3 ≤ wideSize := by
  unfold formAt
  split
  · rename_i line operand _
    cases line.instruction with
    | branch condition label => exact .inr ⟨_, 8, rfl, by decide⟩
    | jump op label => exact .inr ⟨_, 5, rfl, by decide⟩
    | _ => exact .inl ⟨_, rfl⟩
  · exact .inl ⟨0, rfl⟩

theorem isWideTo_siteAt {index : Nat} (hindex : index < marks.length)
    (hbound : ∀ place ≤ index, offsets place < 65536) (label : Label) :
    (siteAt wide marks offsets index).isWideTo label =
      Form.isWide offsets wide index ((marks.placeOf? label).getD marks.length) := by
  have hsite : (siteAt wide marks offsets index).offsetOf? label =
      marks.offsetOf? offsets (index + 1) label := rfl
  rw [EncodingSite.isWideTo, hsite]
  cases hknown : marks.offsetOf? offsets (index + 1) label with
  | some target =>
    obtain ⟨place, hplace, hlt, rfl⟩ := Marks.offsetOf?_eq_some_iff.1 hknown
    have hle := Nat.le_of_lt_succ hlt
    rw [hplace, Option.getD_some, Form.isWide_of_behind hle]
    simp only [siteAt, distance, UInt16.toNat_ofNat_of_lt' (hbound place hle)]
  | none =>
    refine (Form.isWide_of_ahead ?_).symm
    cases hplace : marks.placeOf? label with
    | none => exact hindex
    | some place => exact Marks.offsetOf?_eq_none_iff.1 hknown place hplace

theorem length_encodedAt {index : Nat} (hindex : index < marks.length)
    (hbound : ∀ place ≤ index, offsets place < 65536)
    (hswitch : ∀ line, lines[index]? = some line → line.1.instruction.isSwitch = false) :
    (encodedAt wide lines marks offsets index).bytes.length =
      (formAt lines marks index).size offsets wide index := by
  unfold encodedAt formAt
  cases hline : lines[index]? with
  | none => rfl
  | some line =>
    obtain ⟨line, operand⟩ := line
    have hfixed := hswitch _ hline
    dsimp only at hfixed ⊢
    cases hinstruction : line.instruction with
    | branch condition label =>
      rw [Instruction.encode, EncodingSite.length_encodeBranch, isWideTo_siteAt hindex hbound]
      rfl
    | jump op label =>
      rw [Instruction.encode, EncodingSite.length_encodeJump, isWideTo_siteAt hindex hbound]
      rfl
    | tableSwitch | lookupSwitch =>
      rw [hinstruction] at hfixed
      cases hfixed
    | _ => rfl

theorem length_le_marksOf (lines : List (CodeLine × Operand)) (endLabel : Option Label) :
    lines.length ≤ (marksOf lines endLabel).length := by
  rw [marksOf, List.length_append, List.length_map]
  exact Nat.le_add_right ..

theorem HasOffsets.spaced (hoffsets : HasOffsets wide lines marks offsets)
    (hswitch : ∀ line ∈ lines, line.1.instruction.isSwitch = false)
    (hmarks : lines.length ≤ marks.length) {count : Nat} (hcount : count ≤ lines.length)
    (hbound : ∀ index < count, offsets index < 65536) :
    Spaced (formAt lines marks) count wide offsets := by
  intro index hindex
  rw [hoffsets.succ index (by omega), length_encodedAt (by omega)
    (fun place hplace => hbound place (by omega))
    fun line hline => hswitch line (List.mem_of_getElem? hline)]

/-! ### Attempts -/

/-- A branch or jump that may be short is too far from a place that is ahead. -/
structure IsTooFar (wide : Std.HashSet Nat) (lines : List (CodeLine × Operand)) (marks : Marks)
    (offsets : Nat → Nat) (index place : Nat) : Prop where
  index_lt : index < lines.length
  form : ∃ wideSize, formAt lines marks index = .toward place wideSize
  ahead : index < place
  place_le : place ≤ lines.length
  narrow : wide.contains index = false
  far : fitsShort ((offsets place : Int) - offsets index) = false

/-- The sets of lines that are wide in one of the attempts. -/
inductive Attempted (lines : List (CodeLine × Operand)) (endLabel : Option Label) :
    Std.HashSet Nat → Prop
  | first : Attempted lines endLabel ∅
  | again {wide : Std.HashSet Nat} {offsets : Nat → Nat} {layout : Layout} {index place : Nat}
      (hwide : Attempted lines endLabel wide)
      (hcomplete : Complete wide lines endLabel offsets layout)
      (hfar : IsTooFar wide lines (marksOf lines endLabel) offsets index place) :
      Attempted lines endLabel (wide.insert index)

theorem exists_of_fillHoles {placement : Placement} {size : Nat} {holes : List Hole}
    {code : Array UInt8} {index : Nat}
    (hfill : fillHoles placement size holes code = .ok (.tooFar index)) :
    ∃ hole ∈ holes, hole.instruction = index ∧ hole.wide = false ∧
      ∃ target, placement[hole.label]? = some target ∧
        fitsShort (distance hole.base target) = false := by
  induction holes generalizing code with
  | nil => cases hfill
  | cons hole holes ih =>
    rw [fillHoles, Placement.offsetOf] at hfill
    cases hlabel : placement[hole.label]? with
    | none =>
      rw [hlabel] at hfill
      cases hfill
    | some target =>
      rw [hlabel] at hfill
      dsimp only at hfill
      split at hfill
      · cases hfill
      · split at hfill
        · obtain ⟨other, hmem, hother⟩ := ih hfill
          exact ⟨other, List.mem_cons_of_mem _ hmem, hother⟩
        · rename_i hnarrow
          split at hfill
          · obtain ⟨other, hmem, hother⟩ := ih hfill
            exact ⟨other, List.mem_cons_of_mem _ hmem, hother⟩
          · rename_i hfar
            cases hfill
            exact ⟨hole, List.mem_cons_self, rfl, Bool.eq_false_iff.2 hnarrow, target, hlabel,
              Bool.eq_false_iff.2 hfar⟩

/-- Holes for labels at lines are filled, unless one of them is too far from its target. -/
theorem fillHoles_cases {placement : Placement} {size : Nat} {holes : List Hole}
    (hplaced : ∀ hole ∈ holes, ∃ target, placement[hole.label]? = some target ∧ target.toNat < size)
    (code : Array UInt8) :
    ∃ filling, fillHoles placement size holes code = .ok filling := by
  induction holes generalizing code with
  | nil => exact ⟨_, rfl⟩
  | cons hole holes ih =>
    obtain ⟨⟨target, hlabel, hlt⟩, hrest⟩ := List.forall_mem_cons.1 hplaced
    rw [fillHoles, Placement.offsetOf, hlabel]
    dsimp only
    rw [if_neg (Nat.not_le.2 hlt)]
    split
    · exact ih hrest _
    · split
      · exact ih hrest _
      · exact ⟨_, rfl⟩

section

variable {layout : Layout}

theorem formOf_of_isRelaxable (marks : Marks) (operand : Operand)
    {instruction : Instruction Label} {label : Label} (hrelaxable : instruction.isRelaxable)
    (hlabel : label ∈ instruction.targets) :
    ∃ wideSize, formOf marks operand instruction =
      .toward ((marks.placeOf? label).getD marks.length) wideSize := by
  cases instruction with
  | branch condition other =>
    obtain rfl := List.mem_singleton.1 hlabel
    exact ⟨8, rfl⟩
  | jump op other =>
    obtain rfl := List.mem_singleton.1 hlabel
    exact ⟨5, rfl⟩
  | _ => cases hrelaxable

theorem Complete.isTooFar_of_fillHoles (hcomplete : Complete wide lines endLabel offsets layout)
    {size : Nat} {code : Array UInt8} {index : Nat}
    (hfill : fillHoles layout.placement size layout.holes.toList code = .ok (.tooFar index)) :
    isRelaxableAt lines index ∧
      ∃ place, IsTooFar wide lines (marksOf lines endLabel) offsets index place := by
  obtain ⟨hole, hhole, hinstruction, hnarrow, target, htarget, hfar⟩ := exists_of_fillHoles hfill
  obtain ⟨other, line, operand, hline, hhole⟩ := hcomplete.mem_holes_iff.1 hhole
  have hlt := (List.getElem?_eq_some_iff.1 hline).1
  obtain ⟨hlabel, hunknown, hindex, hshort⟩ := hole_of_mem_encode hhole
  obtain ⟨hrelaxable, hwide, hbase⟩ := hshort hnarrow
  obtain rfl : other = index := hindex.symm.trans hinstruction
  obtain ⟨hfinal, place, hplace⟩ := hcomplete.exists_place htarget
  have hat := hcomplete.toNat_final hplace
  rw [hfinal] at hat
  refine ⟨by simp [isRelaxableAt, hline, hrelaxable], place, hlt, ?_,
    Marks.offsetOf?_eq_none_iff.1 hunknown place hplace,
    le_of_getElem?_marksOf (Marks.getElem?_of_placeOf? hplace), hwide, ?_⟩
  · obtain ⟨wideSize, hform⟩ := formOf_of_isRelaxable (marksOf lines endLabel) operand
      hrelaxable hlabel
    rw [hplace, Option.getD_some] at hform
    exact ⟨wideSize, by simp only [formAt, hline, hform]⟩
  · rwa [distance, hat, hbase] at hfar

def TargetsPlaced (lines : List (CodeLine × Operand)) (endLabel : Option Label) : Prop :=
  ∀ line ∈ lines, ∀ label ∈ line.1.instruction.targets,
    ∃ place < lines.length, (marksOf lines endLabel).placeOf? label = some place

/-- Holes are for targets, and these are lines. -/
theorem Complete.exists_of_mem_holes (hcomplete : Complete wide lines endLabel offsets layout)
    (htargets : TargetsPlaced lines endLabel) :
    ∀ hole ∈ layout.holes.toList, ∃ target, layout.placement[hole.label]? = some target ∧
      target.toNat < layout.code.size := by
  intro hole hhole
  obtain ⟨index, line, operand, hline, hhole⟩ := hcomplete.mem_holes_iff.1 hhole
  obtain ⟨hlabel, -⟩ := hole_of_mem_encode hhole
  obtain ⟨place, hlt, hplace⟩ := htargets _ (List.mem_of_getElem? hline) _ hlabel
  have hoffset : (marksOf lines endLabel).offsetOf? offsets (lines.length + 1) hole.label =
      some (UInt16.ofNat (offsets place)) :=
    Marks.offsetOf?_eq_some_iff.2 ⟨place, hplace, Nat.lt_succ_of_lt hlt, rfl⟩
  refine ⟨_, (hcomplete.placement _).trans hoffset, ?_⟩
  rw [← hcomplete.final_eq hplace, hcomplete.toNat_final hplace, hcomplete.size]
  exact hcomplete.hasOffsets.offsets_lt_of_lt hcomplete.final_of_offsetOf? hlt (Nat.le_refl _)

/-- **Settling.** Attempts end with one whose holes can all be filled. -/
theorem exists_attempted_of_settle (hwide : Attempted lines endLabel wide)
    (hsettle : settle lines endLabel wide = .ok layout) :
    ∃ wide offsets last code, Attempted lines endLabel wide ∧
      Settled wide lines endLabel offsets last ∧
      code.toList =
        codeOf wide lines (marksOf lines endLabel) offsets last.placement.final lines.length ∧
      { last with code := code } = layout := by
  fun_induction settle lines endLabel wide with
  | case1 | case2 | case5 => cases hsettle
  | case3 wide last hlast code hfill =>
    cases hsettle
    obtain ⟨offsets, hsettled, hcode⟩ := exists_settled_of_fillHoles hlast hfill
    exact ⟨wide, offsets, last, code, hwide, hsettled, hcode, rfl⟩
  | case4 wide last hlast index hfill hshort ih =>
    obtain ⟨offsets, hoffsets⟩ := exists_hasOffsets wide lines (marksOf lines endLabel)
    have hcomplete := complete_of_ofLines hoffsets hlast
    obtain ⟨-, place, hfar⟩ := hcomplete.isTooFar_of_fillHoles hfill
    exact ih (.again hwide hcomplete hfar) hsettle

/-- An attempt to lay out lines gets longer than code may be. -/
def GetsTooLong (lines : List (CodeLine × Operand)) (endLabel : Option Label) : Prop :=
  ∃ wide offsets, Attempted lines endLabel wide ∧
    HasOffsets wide lines (marksOf lines endLabel) offsets ∧
    CodeAttribute.maxLength < offsets lines.length

/-- **Failing to settle.** If labels are at one place each and targets are lines, only the length can
be a reason not to settle. -/
theorem overflow_of_settle {error : Error} (hdistinct : (marksOf lines endLabel).IsDistinct)
    (htargets : TargetsPlaced lines endLabel) (hwide : Attempted lines endLabel wide)
    (hsettle : settle lines endLabel wide = .error error) :
    error = .ofFault .bytecodeOverflow ∧ GetsTooLong lines endLabel := by
  fun_induction settle lines endLabel wide with
  | case1 wide failure hfailure =>
    cases hsettle
    obtain ⟨offsets, hoffsets⟩ := exists_hasOffsets wide lines (marksOf lines endLabel)
    refine ⟨eq_of_ofLines_error hoffsets hdistinct hfailure, wide, offsets, hwide, hoffsets, ?_⟩
    by_contra hshort
    obtain ⟨layout, hlayout⟩ := exists_ofLines hoffsets hdistinct
      (fun index hindex => Nat.le_trans
        (hoffsets.offsets_le (Nat.le_of_lt hindex) (Nat.le_refl _)) (Nat.not_lt.1 hshort))
      fun _ => Nat.not_lt.1 hshort
    cases hlayout.symm.trans hfailure
  | case2 wide last hlast failure hfailure =>
    obtain ⟨offsets, hoffsets⟩ := exists_hasOffsets wide lines (marksOf lines endLabel)
    obtain ⟨filling, hfill⟩ := fillHoles_cases
      ((complete_of_ofLines hoffsets hlast).exists_of_mem_holes htargets) last.code
    cases hfill.symm.trans hfailure
  | case3 => cases hsettle
  | case4 wide last hlast index hfill hshort ih =>
    obtain ⟨offsets, hoffsets⟩ := exists_hasOffsets wide lines (marksOf lines endLabel)
    have hcomplete := complete_of_ofLines hoffsets hlast
    obtain ⟨-, place, hfar⟩ := hcomplete.isTooFar_of_fillHoles hfill
    exact ih (.again hwide hcomplete hfar) hsettle
  | case5 wide last hlast index hfill hshort =>
    obtain ⟨offsets, hoffsets⟩ := exists_hasOffsets wide lines (marksOf lines endLabel)
    obtain ⟨hrelaxable, place, hfar⟩ :=
      (complete_of_ofLines hoffsets hlast).isTooFar_of_fillHoles hfill
    exact absurd ⟨hrelaxable, hfar.narrow⟩ hshort

/-- Each line starts before the lines in front of it could end. -/
theorem HasOffsets.le_sum (hoffsets : HasOffsets wide lines marks offsets) {count : Nat}
    (hcount : count ≤ lines.length) :
    offsets count ≤ ((lines.take count).map fun line => line.1.instruction.maxSize).sum := by
  induction count with
  | zero => exact Nat.le_of_eq hoffsets.zero
  | succ count ih =>
    have hline : (encodedAt wide lines marks offsets count).bytes.length ≤
        lines[count].1.instruction.maxSize := by
      rw [encodedAt, List.getElem?_eq_getElem hcount]
      exact Instruction.length_encode_le ..
    rw [hoffsets.succ count hcount, List.take_add_one, List.getElem?_eq_getElem hcount,
      Option.toList_some, List.map_append, List.sum_append, List.map_singleton, List.sum_singleton]
    exact Nat.add_le_add (ih (Nat.le_of_succ_le hcount)) hline

theorem not_getsTooLong
    (hsize : (lines.map fun line => line.1.instruction.maxSize).sum ≤ CodeAttribute.maxLength) :
    ¬ GetsTooLong lines endLabel := by
  rintro ⟨wide, offsets, -, hoffsets, hlong⟩
  have hle := hoffsets.le_sum (Nat.le_refl _)
  rw [List.take_length] at hle
  exact Nat.not_lt.2 (Nat.le_trans hle hsize) hlong

theorem Settled.fits (hsettled : Settled wide lines endLabel offsets layout) :
    Fits wide lines endLabel offsets where
  hasOffsets := hsettled.hasOffsets
  distinct := hsettled.distinct
  start_le := hsettled.start_le
  end_le := hsettled.end_le
  target := by
    intro index line operand hline label hlabel
    obtain ⟨place, hlt, hplace⟩ := hsettled.exists_place_of_target hline hlabel
    refine ⟨place, hlt, hplace, fun hrelaxable hnarrow hahead => ?_⟩
    obtain ⟨other, hle, hother, -⟩ | ⟨-, hole, rfl, ⟨target, htarget, -, hfits⟩, hhole⟩ :=
      hsettled.known_or_fillable hline hlabel
    · cases hplace.symm.trans hother
      exact absurd hahead (Nat.not_lt.2 hle)
    · obtain ⟨hwide, hbase⟩ := hhole hrelaxable hnarrow
      have hat := hsettled.toNat_final hplace
      rw [(hsettled.exists_place htarget).1] at hat
      have hreach := hfits hwide
      rwa [distance, hat, hbase] at hreach

end

/-! ### The lines that have to be wide -/

namespace Fits

theorem targetsPlaced (hfits : Fits wide lines endLabel offsets) : TargetsPlaced lines endLabel := by
  rintro ⟨line, operand⟩ hmem label hlabel
  obtain ⟨index, hline⟩ := List.getElem?_of_mem hmem
  obtain ⟨place, hlt, hplace, -⟩ := hfits.target index line operand hline label hlabel
  exact ⟨place, hlt, hplace⟩

theorem spaced (hfits : Fits wide lines endLabel offsets)
    (hswitch : ∀ line ∈ lines, line.1.instruction.isSwitch = false) :
    Spaced (formAt lines (marksOf lines endLabel)) lines.length wide offsets :=
  hfits.hasOffsets.spaced hswitch (length_le_marksOf lines endLabel) (Nat.le_refl _)
    fun index hindex => Nat.lt_succ_of_le (hfits.start_le index hindex)

theorem reaches (hfits : Fits wide lines endLabel offsets) {index place wideSize : Nat}
    (hindex : index < lines.length)
    (hform : formAt lines (marksOf lines endLabel) index = .toward place wideSize)
    (hahead : index < place) (hnarrow : wide.contains index = false) :
    fitsShort ((offsets place : Int) - offsets index) := by
  obtain ⟨⟨line, operand⟩, hline⟩ : ∃ line, lines[index]? = some line :=
    ⟨_, List.getElem?_eq_getElem hindex⟩
  have hreach := hfits.target index line operand hline
  simp only [formAt, hline] at hform
  cases hinstruction : line.instruction with
  | branch condition label =>
    rw [hinstruction] at hform hreach
    cases hform
    obtain ⟨place, -, hplace, hreach⟩ := hreach label (List.mem_singleton_self label)
    rw [hplace] at hahead ⊢
    exact hreach rfl hnarrow hahead
  | jump op label =>
    rw [hinstruction] at hform hreach
    cases hform
    obtain ⟨place, -, hplace, hreach⟩ := hreach label (List.mem_singleton_self label)
    rw [hplace] at hahead ⊢
    exact hreach rfl hnarrow hahead
  | _ =>
    rw [hinstruction] at hform
    cases hform

variable {least : Std.HashSet Nat} {other : Nat → Nat}

/-- An attempt with fewer lines wide is not larger. -/
theorem compared (hfits : Fits least lines endLabel offsets)
    (hswitch : ∀ line ∈ lines, line.1.instruction.isSwitch = false)
    (hother : HasOffsets wide lines (marksOf lines endLabel) other)
    (hwide : ∀ index, wide.contains index → least.contains index) {count : Nat}
    (hcount : count ≤ lines.length) (hbound : ∀ index < count, other index < 65536) :
    Compared (formAt lines (marksOf lines endLabel)) (formAt lines (marksOf lines endLabel)) id
      count wide least other offsets where
  spaced := hother.spaced hswitch (length_le_marksOf lines endLabel) hcount hbound
  finerSpaced index hindex := hfits.spaced hswitch index (Nat.lt_of_lt_of_le hindex hcount)
  refines index _ := by
    obtain ⟨size, hform⟩ | ⟨place, wideSize, hform, hsize⟩ :=
      formAt_cases lines (marksOf lines endLabel) index
    · exact .fixed hform rfl hform
    · exact .same hform rfl hform hsize
  ahead _ _ _ _ _ hahead := hahead
  wide_of_wide := hwide

theorem offsets_le (hfits : Fits least lines endLabel offsets)
    (hswitch : ∀ line ∈ lines, line.1.instruction.isSwitch = false)
    (hother : HasOffsets wide lines (marksOf lines endLabel) other)
    (hwide : ∀ index, wide.contains index → least.contains index) {count : Nat}
    (hcount : count ≤ lines.length) : ∀ place ≤ count, other place ≤ offsets place := by
  induction count with
  | zero =>
    intro place hplace
    rw [Nat.le_zero.1 hplace, hother.zero]
    exact Nat.zero_le _
  | succ count ih =>
    have hbefore := ih (Nat.le_of_succ_le hcount)
    have hbound : ∀ index < count + 1, other index < 65536 := fun index hindex =>
      Nat.lt_succ_of_le (Nat.le_trans (hbefore index (Nat.le_of_lt_succ hindex))
        (hfits.start_le index (Nat.lt_of_lt_of_le hindex hcount)))
    intro place hplace
    have hgap := (hfits.compared hswitch hother hwide hcount hbound).gap_le (Nat.zero_le place)
      hplace
    rw [hother.zero] at hgap
    exact Nat.le_trans (Nat.le_add_right ..) hgap

/-- **One attempt.** With fewer lines wide the holes are filled, unless a line is found too far that
is wide when the lines fit. -/
theorem exists_attempt (hfits : Fits least lines endLabel offsets)
    (hswitch : ∀ line ∈ lines, line.1.instruction.isSwitch = false)
    (hwide : ∀ index, wide.contains index → least.contains index) :
    ∃ other layout filling, ofLines wide lines endLabel = .ok layout ∧
      Complete wide lines endLabel other layout ∧
      fillHoles layout.placement layout.code.size layout.holes.toList layout.code = .ok filling ∧
      ∀ index, filling = .tooFar index → least.contains index ∧ isRelaxableAt lines index ∧
        wide.contains index = false := by
  obtain ⟨other, hother⟩ := exists_hasOffsets wide lines (marksOf lines endLabel)
  have hle := hfits.offsets_le hswitch hother hwide (Nat.le_refl _)
  have hstart : ∀ index < lines.length, other index ≤ CodeAttribute.maxLength := fun index hindex =>
    Nat.le_trans (hle index (Nat.le_of_lt hindex)) (hfits.start_le index hindex)
  obtain ⟨layout, hlayout⟩ := exists_ofLines hother hfits.distinct hstart fun hend =>
    Nat.le_trans (hle _ (Nat.le_refl _)) (hfits.end_le hend)
  have hcomplete := complete_of_ofLines hother hlayout
  obtain ⟨filling, hfill⟩ :=
    fillHoles_cases (hcomplete.exists_of_mem_holes hfits.targetsPlaced) layout.code
  refine ⟨other, layout, filling, hlayout, hcomplete, hfill, ?_⟩
  rintro index rfl
  obtain ⟨hrelaxable, place, hfar⟩ := hcomplete.isTooFar_of_fillHoles hfill
  obtain ⟨wideSize, hform⟩ := hfar.form
  have hcompared := hfits.compared hswitch hother hwide (Nat.le_refl _) fun index hindex =>
    Nat.lt_succ_of_le (hstart index hindex)
  refine ⟨?_, hrelaxable, hfar.narrow⟩
  exact hcompared.wide_of_far hfar.index_lt hform hfar.ahead hfar.place_le hfar.narrow hfar.far
    fun carrier hcarrier target size hcarrierForm hahead hnarrow =>
      hfits.reaches hcarrier hcarrierForm hahead hnarrow

/-- **The last attempt.** If lines fit with some of them wide, and do not fit unless these are, then
the attempts end with these. -/
theorem exists_settle_eq (hfits : Fits least lines endLabel offsets)
    (hswitch : ∀ line ∈ lines, line.1.instruction.isSwitch = false)
    (hleast : ∀ wide other, Fits wide lines endLabel other →
      ∀ index, least.contains index → wide.contains index)
    (hwide : ∀ index, wide.contains index → least.contains index) :
    ∃ final, (∀ index, final.contains index = least.contains index) ∧
      settle lines endLabel wide = settle lines endLabel final := by
  fun_induction settle lines endLabel wide with
  | case1 wide error herror =>
    obtain ⟨other, layout, filling, hlayout, -⟩ := hfits.exists_attempt hswitch hwide
    cases hlayout.symm.trans herror
  | case2 wide last hlast error herror =>
    obtain ⟨other, layout, filling, hlayout, -, hfill, -⟩ := hfits.exists_attempt hswitch hwide
    cases hlayout.symm.trans hlast
    cases hfill.symm.trans herror
  | case3 wide last hlast code hfilled =>
    obtain ⟨other, layout, filling, hlayout, hcomplete, -⟩ := hfits.exists_attempt hswitch hwide
    cases hlayout.symm.trans hlast
    have hfillable := (fillHoles_eq_filled_iff.1 hfilled).1
    have hsettled : Settled wide lines endLabel other last := ⟨hcomplete, hfillable⟩
    refine ⟨wide, fun index => Bool.eq_iff_iff.2 ⟨hwide index, ?_⟩, ?_⟩
    · exact hleast wide other hsettled.fits index
    · rw [settle, hlayout]
      simp only [hfilled]
  | case4 wide last hlast index hfar hshort ih =>
    obtain ⟨other, layout, filling, hlayout, -, hfill, htooFar⟩ :=
      hfits.exists_attempt hswitch hwide
    cases hlayout.symm.trans hlast
    cases hfill.symm.trans hfar
    refine ih fun other hcontains => ?_
    rw [Std.HashSet.contains_insert, Bool.or_eq_true, beq_iff_eq] at hcontains
    obtain rfl | hcontains := hcontains
    · exact (htooFar _ rfl).1
    · exact hwide other hcontains
  | case5 wide last hlast index hfar hshort =>
    obtain ⟨other, layout, filling, hlayout, -, hfill, htooFar⟩ :=
      hfits.exists_attempt hswitch hwide
    cases hlayout.symm.trans hlast
    cases hfill.symm.trans hfar
    exact absurd (htooFar _ rfl).2 hshort

end Fits

end Layout

end JvmClass
