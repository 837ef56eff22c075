import JvmClass.Code.Layout
import JvmClass.Proofs.Instruction.Encoding

/-!
# Filling holes

Each hole of an encoded instruction lies within the bytes of that instruction, so filling the holes
of a whole layout fills each instruction by itself. `Encoded.Filled` says what becomes of encoded
bytes at a position, and `filled_encode` that an instruction becomes its bytes with known targets.
-/

namespace JvmClass

/-! ### Overwriting -/

/-- Overwriting replaces bytes by as many others. -/
theorem toList_overwrite {code : Array UInt8} {front middle back bytes : Bytes}
    (hcode : code.toList = front ++ (middle ++ back)) (hlength : middle.length = bytes.length) :
    (overwrite code front.length bytes).toList = front ++ (bytes ++ back) := by
  induction bytes generalizing code front middle with
  | nil =>
    obtain rfl : middle = [] := List.length_eq_zero_iff.1 hlength
    exact hcode
  | cons byte bytes ih =>
    obtain _ | ⟨old, middle⟩ := middle
    · simp at hlength
    · have hset : (code.setIfInBounds front.length byte).toList =
          front ++ [byte] ++ (middle ++ back) := by
        rw [Array.toList_setIfInBounds, hcode, List.set_append_right _ _ (Nat.le_refl _)]
        simp
      have hrest := ih hset (by simpa using hlength)
      rw [List.length_append, List.length_singleton] at hrest
      rw [overwrite, hrest]
      simp

/-! ### Holes of a piece of code -/

def Hole.placeholder (hole : Hole) : Bytes :=
  if hole.wide then widePlaceholder else shortPlaceholder

/-- `bytes` are what becomes of encoded bytes at a position when every hole is filled with what
`fill` says. -/
inductive Encoded.Filled (fill : Hole → Bytes) : Nat → Encoded → Bytes → Prop
  | ofBytes (position : Nat) (bytes : Bytes) : Filled fill position (.ofBytes bytes) bytes
  | hole (hole : Hole) (hlength : hole.placeholder.length = (fill hole).length) :
      Filled fill hole.position ⟨hole.placeholder, [hole]⟩ (fill hole)
  | append {position : Nat} {first second : Encoded} {front back : Bytes}
      (hfirst : Filled fill position first front)
      (hsecond : Filled fill (position + front.length) second back) :
      Filled fill position (first ++ second) (front ++ back)

/-- Fills holes one after the other, whether or not there is a distance that fits. -/
def fillAll (fill : Hole → Bytes) (holes : List Hole) (code : Array UInt8) : Array UInt8 :=
  holes.foldl (fun code hole => overwrite code hole.position (fill hole)) code

namespace Encoded.Filled

variable {fill : Hole → Bytes}

theorem length_eq {position : Nat} {encoded : Encoded} {bytes : Bytes}
    (hfilled : Filled fill position encoded bytes) : bytes.length = encoded.bytes.length := by
  induction hfilled with
  | ofBytes => rfl
  | hole hole hlength => exact hlength.symm
  | @append _ first second _ _ _ _ hfirst hsecond =>
    change _ = (first.bytes ++ second.bytes).length
    rw [List.length_append, List.length_append, hfirst, hsecond]

/-- Filling the holes of one piece of code leaves everything around it as it is. -/
theorem toList_fillAll {position : Nat} {encoded : Encoded} {bytes : Bytes}
    (hfilled : Filled fill position encoded bytes) {code : Array UInt8} {front back : Bytes}
    (hcode : code.toList = front ++ (encoded.bytes ++ back)) (hposition : front.length = position) :
    (fillAll fill encoded.holes code).toList = front ++ (bytes ++ back) := by
  induction hfilled generalizing code front back with
  | ofBytes => exact hcode
  | hole hole hlength =>
    change (overwrite code hole.position (fill hole)).toList = _
    rw [← hposition]
    exact toList_overwrite hcode hlength
  | @append _ first second firstBytes secondBytes hfirstFilled _ hfirst hsecond =>
    have hsplit : code.toList = front ++ (first.bytes ++ (second.bytes ++ back)) := by
      rw [hcode]
      exact congrArg (front ++ ·) (List.append_assoc ..)
    have hafter := hfirst hsplit hposition
    rw [← List.append_assoc] at hafter
    have hrest := hsecond hafter (by rw [List.length_append, hposition])
    change (fillAll fill (first.holes ++ second.holes) code).toList = _
    rw [fillAll, List.foldl_append]
    rw [List.append_assoc] at hrest ⊢
    exact hrest

theorem toList_fillAll_whole {encoded : Encoded} {bytes : Bytes}
    (hfilled : Filled fill 0 encoded bytes) {code : Array UInt8}
    (hcode : code.toList = encoded.bytes) : (fillAll fill encoded.holes code).toList = bytes := by
  have hwhole : code.toList = [] ++ (encoded.bytes ++ []) := by
    rw [hcode, List.append_nil, List.nil_append]
  rw [hfilled.toList_fillAll hwhole rfl, List.append_nil, List.nil_append]

theorem appendAt {position next : Nat} {first second : Encoded} {front back bytes : Bytes}
    (hfirst : Filled fill position first front) (hnext : position + front.length = next)
    (hsecond : Filled fill next second back) (hbytes : front ++ back = bytes) :
    Filled fill position (first ++ second) bytes := by
  subst hnext hbytes
  exact .append hfirst hsecond

theorem behind {position : Nat} (head : Bytes) (hole : Hole)
    (hposition : position + head.length = hole.position)
    (hlength : hole.placeholder.length = (fill hole).length) :
    Filled fill position ⟨head ++ hole.placeholder, [hole]⟩ (head ++ fill hole) :=
  appendAt (.ofBytes position head) hposition (.hole hole hlength) rfl

theorem concat_zipIdx {α : Type} {encode : α × Nat → Encoded} {bytesOf : α → Bytes}
    {width base : Nat} (values : List α) (first : Nat)
    (hfilled : ∀ value ∈ values, ∀ index,
      Filled fill (base + width * index) (encode (value, index)) (bytesOf value))
    (hwidth : ∀ value ∈ values, (bytesOf value).length = width) :
    Filled fill (base + width * first) (.concat ((values.zipIdx first).map encode))
      (values.flatMap bytesOf) := by
  induction values generalizing first with
  | nil => exact .ofBytes _ []
  | cons value values ih =>
    have hrest := ih (first + 1) (fun other hother => hfilled other (List.mem_cons_of_mem _ hother))
      fun other hother => hwidth other (List.mem_cons_of_mem _ hother)
    rw [Nat.mul_add, Nat.mul_one, ← Nat.add_assoc, ← hwidth value List.mem_cons_self] at hrest
    have hfirst := hfilled value List.mem_cons_self first
    rw [← hwidth value List.mem_cons_self] at hfirst
    rw [← hwidth value List.mem_cons_self]
    exact .append hfirst hrest

end Encoded.Filled

/-! ### Instructions -/

namespace EncodingSite

variable (site : EncodingSite)

/-- Whether a branch or jump to a label is wide: where the target is known, if it is too far, and
else if the site says so. -/
def isWideTo (label : Label) : Bool :=
  match site.offsetOf? label with
  | some target => !fitsShort (distance site.offset target)
  | none => site.wide

def takesWide : Instruction Label → Bool
  | .branch _ label => site.isWideTo label
  | .jump _ label => site.isWideTo label
  | _ => false

end EncodingSite

def Hole.bytesFor (final : Label → UInt16) (hole : Hole) : Bytes :=
  if hole.wide then
    wideDistance (distance hole.base (final hole.label))
  else
    shortDistance (distance hole.base (final hole.label))

namespace Encoded.Filled

variable {site : EncodingSite} {final : Label → UInt16}

theorem encodeJump
    (hknown : ∀ label target, site.offsetOf? label = some target → final label = target)
    (op : JumpOp) (label : Label) (operand : Operand) :
    Filled (Hole.bytesFor final) site.offset (site.encodeJump op label)
      (Instruction.bytesAt site.offset (site.isWideTo label) operand (.jump op (final label))) := by
  cases hlabel : site.offsetOf? label with
  | some target =>
    simp only [EncodingSite.encodeJump, EncodingSite.isWideTo, Instruction.bytesAt, hlabel,
      hknown label target hlabel]
    cases fitsShort (distance site.offset target) <;> exact .ofBytes _ _
  | none =>
    simp only [EncodingSite.encodeJump, EncodingSite.isWideTo, Instruction.bytesAt, hlabel]
    cases site.wide with
    | false =>
      exact behind [op.opcode] ⟨site.index, label, site.offset, site.offset + 1, false⟩ rfl rfl
    | true =>
      exact behind [op.wideOpcode] ⟨site.index, label, site.offset, site.offset + 1, true⟩ rfl rfl

theorem encodeBranch
    (hknown : ∀ label target, site.offsetOf? label = some target → final label = target)
    (condition : Condition) (label : Label) (operand : Operand) :
    Filled (Hole.bytesFor final) site.offset (site.encodeBranch condition label)
      (Instruction.bytesAt site.offset (site.isWideTo label) operand
        (.branch condition (final label))) := by
  cases hlabel : site.offsetOf? label with
  | some target =>
    simp only [EncodingSite.encodeBranch, EncodingSite.isWideTo, Instruction.bytesAt, hlabel,
      hknown label target hlabel]
    cases fitsShort (distance site.offset target) <;> exact .ofBytes _ _
  | none =>
    simp only [EncodingSite.encodeBranch, EncodingSite.isWideTo, Instruction.bytesAt, hlabel]
    cases site.wide with
    | false =>
      exact behind [condition.opcode]
        ⟨site.index, label, site.offset, site.offset + 1, false⟩ rfl rfl
    | true =>
      exact behind (EncodingSite.farBranchHead condition)
        ⟨site.index, label, EncodingSite.farBranchBase site.offset, site.offset + 4, true⟩
        rfl rfl

theorem encodeSwitchTarget
    (hknown : ∀ label target, site.offsetOf? label = some target → final label = target)
    (position : Nat) (label : Label) :
    Filled (Hole.bytesFor final) position (site.encodeSwitchTarget position label)
      (wideDistance (distance site.offset (final label))) := by
  cases hlabel : site.offsetOf? label with
  | some target =>
    simp only [EncodingSite.encodeSwitchTarget, hlabel, hknown label target hlabel]
    exact .ofBytes _ _
  | none =>
    simp only [EncodingSite.encodeSwitchTarget, hlabel]
    exact hole ⟨site.index, label, site.offset, position, true⟩ rfl

theorem encodeTableSwitch
    (hknown : ∀ label target, site.offsetOf? label = some target → final label = target)
    (otherwise : Label) (low high : Int32) (targets : List Label) (operand : Operand) :
    Filled (Hole.bytesFor final) site.offset (site.encodeTableSwitch otherwise low high targets)
      (Instruction.bytesAt site.offset false operand
        (.tableSwitch (final otherwise) low high (targets.map final))) := by
  refine appendAt (.append (appendAt (.ofBytes _ _) ?_
    (encodeSwitchTarget hknown _ otherwise) rfl) (.ofBytes _ _)) ?_
    (concat_zipIdx targets 0 (fun target _ _ => encodeSwitchTarget hknown _ target)
      fun _ _ => Instruction.length_wideDistance _) ?_
  · simp only [EncodingSite.padding, EncodingSite.switchStart, List.length_cons,
      List.length_replicate]
    omega
  · simp only [EncodingSite.padding, EncodingSite.switchStart, List.length_append,
      List.length_cons, List.length_replicate, Instruction.length_wideDistance,
      Bytes.length_ofInt32]
    omega
  · simp [Instruction.bytesAt, Instruction.paddingAt, EncodingSite.padding, List.flatMap_map]

theorem encodeLookupSwitch
    (hknown : ∀ label target, site.offsetOf? label = some target → final label = target)
    (otherwise : Label) (cases : List (Int32 × Label)) (operand : Operand) :
    Filled (Hole.bytesFor final) site.offset (site.encodeLookupSwitch otherwise cases)
      (Instruction.bytesAt site.offset false operand
        (.lookupSwitch (final otherwise) (cases.map fun (key, target) => (key, final target)))) := by
  have hcase : ∀ pair ∈ cases, ∀ index,
      Filled (Hole.bytesFor final) (site.switchStart + 8 + 8 * index)
        (.ofBytes (Bytes.ofInt32 pair.1) ++
          site.encodeSwitchTarget (site.switchStart + 8 + 8 * index + 4) pair.2)
        (Bytes.ofInt32 pair.1 ++ wideDistance (distance site.offset (final pair.2))) := by
    intro pair _ index
    refine appendAt (.ofBytes _ _) ?_ (encodeSwitchTarget hknown _ pair.2) rfl
    rw [Bytes.length_ofInt32]
  refine appendAt (.append (appendAt (.ofBytes _ _) ?_
    (encodeSwitchTarget hknown _ otherwise) rfl) (.ofBytes _ _)) ?_
    (concat_zipIdx cases 0 hcase fun _ _ => by simp) ?_
  · simp only [EncodingSite.padding, EncodingSite.switchStart, List.length_cons,
      List.length_replicate]
    omega
  · simp only [EncodingSite.padding, EncodingSite.switchStart, List.length_append,
      List.length_cons, List.length_replicate, Instruction.length_wideDistance,
      Bytes.length_bigEndian]
    omega
  · simp [Instruction.bytesAt, Instruction.paddingAt, EncodingSite.padding, List.flatMap_map]

/-- **Instructions.** When the holes of an instruction are filled, it is its bytes with every target
replaced by the offset of the label. -/
theorem encode
    (hknown : ∀ label target, site.offsetOf? label = some target → final label = target)
    (instruction : Instruction Label) (operand : Operand) :
    Filled (Hole.bytesFor final) site.offset (instruction.encode site operand)
      ((instruction.map final).bytesAt site.offset (site.takesWide instruction) operand) := by
  cases instruction with
  | branch condition label => exact encodeBranch hknown condition label operand
  | jump op label => exact encodeJump hknown op label operand
  | tableSwitch otherwise low high targets =>
    rw [Instruction.map_tableSwitch]
    exact encodeTableSwitch hknown otherwise low high targets operand
  | lookupSwitch otherwise cases =>
    rw [Instruction.map_lookupSwitch]
    exact encodeLookupSwitch hknown otherwise cases operand
  | _ => exact .ofBytes _ _

end Encoded.Filled

/-! ### All holes -/

def Placement.final (placement : Placement) (label : Label) : UInt16 :=
  placement[label]?.getD 0

/-- The label of a hole is at an instruction, near enough if the hole is short. -/
def Hole.IsFillable (placement : Placement) (size : Nat) (hole : Hole) : Prop :=
  ∃ target, placement[hole.label]? = some target ∧ target.toNat < size ∧
    (hole.wide = false → fitsShort (distance hole.base target))

theorem fillHoles_eq_filled_iff {placement : Placement} {size : Nat} {holes : List Hole}
    {code filled : Array UInt8} :
    fillHoles placement size holes code = .ok (.filled filled) ↔
      (∀ hole ∈ holes, hole.IsFillable placement size) ∧
        filled = fillAll (Hole.bytesFor placement.final) holes code := by
  induction holes generalizing code with
  | nil => simp [fillHoles, fillAll, eq_comm]
  | cons hole holes ih =>
    have hfold : fillAll (Hole.bytesFor placement.final) (hole :: holes) code =
        fillAll (Hole.bytesFor placement.final) holes
          (overwrite code hole.position (hole.bytesFor placement.final)) := rfl
    rw [List.forall_mem_cons, hfold]
    cases hlabel : placement[hole.label]? with
    | none => simp [fillHoles, Placement.offsetOf, Hole.IsFillable, hlabel]
    | some target =>
      have hfinal : placement.final hole.label = target := by
        rw [Placement.final, hlabel, Option.getD_some]
      simp only [fillHoles, Placement.offsetOf, Hole.IsFillable, hlabel, Option.some.injEq,
        exists_eq_left', Hole.bytesFor, hfinal]
      by_cases hsize : size ≤ target.toNat
      · simp [hsize, Nat.not_lt.2 hsize]
      · rw [if_neg hsize]
        cases hwide : hole.wide with
        | true => simp [ih, Nat.not_le.1 hsize, Hole.IsFillable]
        | false =>
          by_cases hfits : fitsShort (distance hole.base target)
          · simp [ih, Nat.not_le.1 hsize, hfits, Hole.IsFillable]
          · simp [hfits]

end JvmClass
