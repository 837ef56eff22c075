import JvmClass.Proofs.Code.Disassembly
import JvmClass.Proofs.Code.Malformed
import JvmClass.Proofs.Instruction.Spelling

/-!
# Two passes over bytecode

Bytecode is swept twice: to find the places that its instructions name, and to read them. Both passes
find the instructions that are encoded in the bytecode one after the other, at the same offsets and
with the same targets, so the second never comes to a target that the first has not seen.
-/

namespace JvmClass

/-! ### Instructions in bytecode -/

/-- The bytes of code from one offset up to another are an encoding of an instruction. -/
structure EncodedAt (pool : Pool) (code : Bytes) (start : Nat) (instruction : Instruction Int)
    (stop : Nat) : Prop where
  lt : start < stop
  le : stop ≤ code.length
  spelled : instruction.SpelledAt pool start true (code.extract start stop)

/-- The offsets that the instructions at the front of code lead to, one after the other. -/
inductive Reached (pool : Pool) (code : Bytes) : Nat → Prop
  | zero : Reached pool code 0
  | next {start stop : Nat} {instruction : Instruction Int} (hstart : Reached pool code start)
      (hencoded : EncodedAt pool code start instruction stop) : Reached pool code stop

/-- An instruction of code, by the offset it starts at. -/
def InstructionAt (pool : Pool) (code : Bytes) (start : Nat) (instruction : Instruction Int) : Prop :=
  Reached pool code start ∧ ∃ stop, EncodedAt pool code start instruction stop

theorem Instruction.SpelledAt.length_pos {pool : Pool} {offset : Nat} {checked : Bool}
    {instruction : Instruction Int} {bytes : Bytes}
    (hspelled : instruction.SpelledAt pool offset checked bytes) : 0 < bytes.length := by
  cases hspelled <;> exact Nat.succ_pos _

section

variable {pool : Pool} {code : Bytes} {start stop : Nat}

theorem EncodedAt.drop_eq {instruction : Instruction Int}
    (hencoded : EncodedAt pool code start instruction stop) :
    code.drop start = code.extract start stop ++ code.drop stop := by
  have hdrop : code.drop stop = (code.drop start).drop (stop - start) := by
    rw [List.drop_drop, Nat.add_sub_cancel' (Nat.le_of_lt hencoded.lt)]
  rw [List.extract_eq_take_drop, hdrop, List.take_append_drop]

theorem EncodedAt.length_extract {instruction : Instruction Int}
    (hencoded : EncodedAt pool code start instruction stop) :
    start + (code.extract start stop).length = stop := by
  have hlt := hencoded.lt
  have hle := hencoded.le
  rw [List.extract_eq_take_drop, List.length_take, List.length_drop]
  omega

theorem extract_of_drop {bytes rest : Bytes} (hdrop : code.drop start = bytes ++ rest) :
    code.extract start (start + bytes.length) = bytes ∧ code.drop (start + bytes.length) = rest := by
  constructor
  · rw [List.extract_eq_take_drop, hdrop, Nat.add_sub_cancel_left, List.take_left']
    rfl
  · rw [← List.drop_drop, hdrop, List.drop_left']
    rfl

theorem map_toNat_injective :
    Function.Injective (List.map fun target : UInt16 => (target.toNat : Int)) :=
  List.map_injective_iff.2 fun _ _ heq => UInt16.toNat_inj.1 (Int.ofNat.inj heq)

/-- **One step.** Where an instruction can be read and skipped, it is encoded, and both go on behind
it. -/
theorem encodedAt_of_read {length : UInt16} {instruction : Instruction UInt16}
    {targets : List UInt16} {next left : Input} (hstart : start < 65536)
    (hread : Instruction.read pool (UInt16.ofNat start) ⟨start, code.drop start⟩ =
      .ok (instruction, next))
    (hskip : Outline.readInstruction length (UInt16.ofNat start) ⟨start, code.drop start⟩ =
      .ok (targets, left)) :
    ∃ stop, next = ⟨stop, code.drop stop⟩ ∧ left = ⟨stop, code.drop stop⟩ ∧
      EncodedAt pool code start instruction.located stop ∧ targets = instruction.targets := by
  have hoffset : (UInt16.ofNat start).toNat = start := UInt16.toNat_ofNat_of_lt' hstart
  obtain ⟨bytes, hinput, hposition, hspelled⟩ := Instruction.spells_read _ _ _ hread
  have hdrop : code.drop start = bytes ++ next.rest := congrArg Input.rest hinput
  obtain ⟨hextract, hrest⟩ := extract_of_drop hdrop
  have hpos := hspelled.length_pos
  rw [hdrop] at hskip
  obtain ⟨rfl, htargets, hchecked⟩ := Outline.takes_of_spelledAt hspelled _ _ _ _ hskip
  have hlength := congrArg List.length hdrop
  rw [List.length_drop, List.length_append] at hlength
  refine ⟨start + bytes.length, ?_, by rw [hrest], ⟨by omega, by omega, ?_⟩, ?_⟩
  · obtain ⟨position, rest⟩ := next
    dsimp only at hposition hrest
    rw [hposition, hrest]
  · rw [hextract]
    rwa [hoffset] at hchecked
  · rw [Instruction.located, Instruction.targets_map] at htargets
    exact map_toNat_injective htargets

/-- Where an instruction was read, no other is encoded. -/
theorem EncodedAt.eq_of_readsAt {instruction : Instruction Int} {found : Instruction UInt16}
    {other : Nat} (hencoded : EncodedAt pool code start instruction stop)
    (hreads : ReadsAt pool code start found other) (hsize : code.length < 65536) :
    instruction = found.located ∧ stop = other := by
  have hlt := hencoded.lt
  have hle := hencoded.le
  have hoffset : (UInt16.ofNat start).toNat = start :=
    UInt16.toNat_ofNat_of_lt' (Nat.lt_trans (Nat.lt_of_lt_of_le hlt hle) hsize)
  have hspelled : instruction.SpelledAt pool (UInt16.ofNat start).toNat true
      (code.extract start stop) := by
    rw [hoffset]
    exact hencoded.spelled
  rw [ReadsAt, hencoded.drop_eq] at hreads
  obtain ⟨hleft, rfl⟩ := hspelled.takes_read _ _ _ _ hreads
  have hposition := congrArg Input.position hleft
  rw [hencoded.length_extract] at hposition
  exact ⟨rfl, hposition.symm⟩

end

/-! ### Two passes over code -/

/-- What the passes over code find from an offset on: instructions, one after the other, up to the
end. -/
inductive Swept (pool : Pool) (code : Bytes) : Nat → List (Nat × Instruction UInt16) → Prop
  | nil : Swept pool code code.length []
  | cons {start stop : Nat} {instruction : Instruction UInt16}
      {rest : List (Nat × Instruction UInt16)}
      (hreads : ReadsAt pool code start instruction stop)
      (hencoded : EncodedAt pool code start instruction.located stop)
      (hrest : Swept pool code stop rest) : Swept pool code start ((start, instruction) :: rest)

theorem mem_of_sweepFrom {α : Type} {read : UInt16 → Reader α} {bytesLeft : Nat}
    {found result : List (UInt16 × α)} {input : Input}
    (hsweep : sweepFrom read bytesLeft found input = .ok result) : found ⊆ result := by
  induction bytesLeft generalizing found input with
  | zero =>
    cases hsweep
    exact fun entry hentry => List.mem_reverse.2 hentry
  | succ bytesLeft ih =>
    rw [sweepFrom] at hsweep
    split at hsweep
    · cases hsweep
      exact fun entry hentry => List.mem_reverse.2 hentry
    · dsimp only at hsweep
      split at hsweep
      · exact fun entry hentry => ih hsweep (List.mem_cons_of_mem _ hentry)
      · cases hsweep

theorem forall_of_sweepFrom {α : Type} {read : UInt16 → Reader α} {post : α → Prop}
    (hread : ∀ offset, (read offset).Ensures post) {bytesLeft : Nat}
    {found result : List (UInt16 × α)} {input : Input}
    (hsweep : sweepFrom read bytesLeft found input = .ok result)
    (hfound : ∀ entry ∈ found, post entry.2) : ∀ entry ∈ result, post entry.2 := by
  induction bytesLeft generalizing found input with
  | zero =>
    cases hsweep
    exact fun entry hentry => hfound entry (List.mem_reverse.1 hentry)
  | succ bytesLeft ih =>
    rw [sweepFrom] at hsweep
    split at hsweep
    · cases hsweep
      exact fun entry hentry => hfound entry (List.mem_reverse.1 hentry)
    · dsimp only at hsweep
      split at hsweep
      · rename_i value next hvalue
        have hpost := hread _ _ _ _ (Result.during_eq_ok_iff.1 hvalue)
        exact ih hsweep (List.forall_mem_cons.2 ⟨hpost, hfound⟩)
      · cases hsweep

/-- An instruction is read with labels in place of targets, if those have labels. -/
theorem Code.readLabeled_eq {pool : Pool} {labels : OffsetLabels} {offset : UInt16}
    {input next : Input} {instruction : Instruction UInt16}
    (hread : Instruction.read pool offset input = .ok (instruction, next))
    (hlabels : ∀ target ∈ instruction.targets, target ∈ labels.labels) :
    Code.readLabeled pool labels offset input = .ok (instruction.map labels.name, next) := by
  have hbind : ∀ name : Instruction UInt16 → Reader (Instruction Label),
      (Instruction.read pool offset >>= name) input = name instruction next := by
    intro name
    change (Instruction.read pool offset input >>= fun found => name found.1 found.2) = _
    rw [hread]
    rfl
  rw [Code.readLabeled, hbind, Instruction.mapM_eq_pure_map fun target htarget => ?_]
  · rfl
  · rw [OffsetLabels.getElem?_eq_some_name (hlabels target htarget)]

/-- **Two passes.** If code can be skipped through and all targets have labels, it can be read as well
or is malformed, and both passes find the same instructions. -/
theorem sweepFrom_readLabeled {pool : Pool} {code : Bytes} {length : UInt16} {labels : OffsetLabels}
    (hsize : code.length < 65536) {bytesLeft start : Nat} (hstart : start ≤ code.length)
    (hleft : code.length ≤ start + bytesLeft) {skipped outline : List (UInt16 × List UInt16)}
    (houtline : sweepFrom (Outline.readInstruction length) bytesLeft skipped
      ⟨start, code.drop start⟩ = .ok outline)
    (hlabels : ∀ entry ∈ outline, ∀ target ∈ entry.2, target ∈ labels.labels)
    (found : List (UInt16 × Instruction Label)) :
    Result.BlamesInput (sweepFrom (Code.readLabeled pool labels) bytesLeft found
      ⟨start, code.drop start⟩) ∧
    ∀ instructions, sweepFrom (Code.readLabeled pool labels) bytesLeft found
      ⟨start, code.drop start⟩ = .ok instructions →
      ∃ swept, Swept pool code start swept ∧
        outline = skipped.reverse ++
          swept.map (fun entry => (UInt16.ofNat entry.1, entry.2.targets)) ∧
        instructions = found.reverse ++
          swept.map fun entry => (UInt16.ofNat entry.1, entry.2.map labels.name) := by
  induction bytesLeft generalizing start skipped found with
  | zero =>
    obtain rfl : start = code.length := by omega
    cases houtline
    refine ⟨inferInstanceAs (Result.BlamesInput (.ok _)), fun instructions hsweep => ?_⟩
    cases hsweep
    exact ⟨[], .nil, by simp, by simp⟩
  | succ bytesLeft ih =>
    rw [sweepFrom] at houtline ⊢
    by_cases hempty : (code.drop start).isEmpty
    · obtain rfl : start = code.length := by
        rw [List.isEmpty_iff, List.drop_eq_nil_iff] at hempty
        omega
      rw [if_pos hempty] at houtline ⊢
      cases houtline
      refine ⟨inferInstance, fun instructions hsweep => ?_⟩
      cases hsweep
      exact ⟨[], .nil, by simp, by simp⟩
    · rw [if_neg hempty] at houtline ⊢
      dsimp only at houtline ⊢
      have hlt : start < code.length := by
        rw [List.isEmpty_iff, List.drop_eq_nil_iff] at hempty
        omega
      -- Skipping the first instruction went well, since skipping all of them did.
      cases hskip : Outline.readInstruction length (UInt16.ofNat start) ⟨start, code.drop start⟩ with
      | error error =>
        rw [Reader.during, hskip] at houtline
        cases houtline
      | ok skippedFirst =>
        obtain ⟨targets, left⟩ := skippedFirst
        rw [Reader.during, hskip] at houtline
        replace houtline : sweepFrom (Outline.readInstruction length) bytesLeft
          ((UInt16.ofNat start, targets) :: skipped) left = .ok outline := houtline
        cases hread : Instruction.read pool (UInt16.ofNat start) ⟨start, code.drop start⟩ with
        | error error =>
          have hkind : error.kind = .format := Result.BlamesInput.kind_eq error hread
          have hlabeled : Code.readLabeled pool labels (UInt16.ofNat start)
              ⟨start, code.drop start⟩ = .error error := by
            change (Instruction.read pool _ _ >>= _) = _
            rw [hread]
            rfl
          rw [Reader.during, hlabeled]
          refine ⟨⟨fun other hother => ?_⟩, fun instructions hsweep => by cases hsweep⟩
          cases hother
          exact hkind
        | ok readFirst =>
          obtain ⟨instruction, next⟩ := readFirst
          obtain ⟨stop, rfl, rfl, hencoded, rfl⟩ :=
            encodedAt_of_read (Nat.lt_trans hlt hsize) hread hskip
          have htargets := hlabels _ (mem_of_sweepFrom houtline List.mem_cons_self)
          rw [Reader.during, Code.readLabeled_eq hread htargets]
          have hstop := hencoded.lt
          obtain ⟨hblames, hsweeps⟩ := ih hencoded.le (by omega) houtline
            ((UInt16.ofNat start, instruction.map labels.name) :: found)
          refine ⟨hblames, fun instructions hsweep => ?_⟩
          obtain ⟨swept, hswept, rfl, rfl⟩ := hsweeps instructions hsweep
          exact ⟨(start, instruction) :: swept, .cons hread hencoded hswept, by simp, by simp⟩

/-- The offsets of what was found, and the one behind it. -/
def offsetsOf (length : Nat) (swept : List (Nat × Instruction UInt16)) (index : Nat) : Nat :=
  (swept[index]?.map Prod.fst).getD length

theorem offsetsOf_of_getElem? {length : Nat} {swept : List (Nat × Instruction UInt16)} {index : Nat}
    {entry : Nat × Instruction UInt16} (hentry : swept[index]? = some entry) :
    offsetsOf length swept index = entry.1 := by
  rw [offsetsOf, hentry, Option.map_some, Option.getD_some]

theorem offsetsOf_length (length : Nat) (swept : List (Nat × Instruction UInt16)) :
    offsetsOf length swept swept.length = length := by
  rw [offsetsOf, List.getElem?_eq_none (Nat.le_refl _), Option.map_none, Option.getD_none]

namespace Swept

variable {pool : Pool} {code : Bytes} {start : Nat} {swept : List (Nat × Instruction UInt16)}

theorem offsetsOf_zero (hswept : Swept pool code start swept) :
    offsetsOf code.length swept 0 = start := by
  cases hswept <;> rfl

theorem encodedAt (hswept : Swept pool code start swept) {index : Nat}
    {entry : Nat × Instruction UInt16} (hentry : swept[index]? = some entry) :
    ReadsAt pool code entry.1 entry.2 (offsetsOf code.length swept (index + 1)) ∧
      EncodedAt pool code entry.1 entry.2.located (offsetsOf code.length swept (index + 1)) := by
  induction hswept generalizing index with
  | nil => cases hentry
  | @cons start stop instruction rest hreads hencoded hrest ih =>
    cases index with
    | zero =>
      cases hentry
      have hnext : offsetsOf code.length ((start, instruction) :: rest) 1 = stop :=
        hrest.offsetsOf_zero
      rw [hnext]
      exact ⟨hreads, hencoded⟩
    | succ index => exact ih hentry

theorem bounds (hswept : Swept pool code start swept) :
    ∀ entry ∈ swept, start ≤ entry.1 ∧ entry.1 < code.length := by
  induction hswept with
  | nil => exact fun _ hentry => (List.not_mem_nil hentry).elim
  | cons hreads hencoded hrest ih =>
    have hlt := hencoded.lt
    have hle := hencoded.le
    refine List.forall_mem_cons.2 ⟨⟨Nat.le_refl _, by omega⟩, fun entry hentry => ?_⟩
    have hbounds := ih entry hentry
    omega

theorem pairwise_lt (hswept : Swept pool code start swept) :
    swept.Pairwise fun first second => first.1 < second.1 := by
  induction hswept with
  | nil => exact .nil
  | cons hreads hencoded hrest ih =>
    refine List.pairwise_cons.2 ⟨fun entry hentry => ?_, ih⟩
    exact Nat.lt_of_lt_of_le hencoded.lt (hrest.bounds entry hentry).1

/-- What was found is there. -/
theorem instructionAt (hswept : Swept pool code start swept) (hreached : Reached pool code start) :
    ∀ entry ∈ swept, InstructionAt pool code entry.1 entry.2.located := by
  induction hswept with
  | nil => exact fun _ hentry => (List.not_mem_nil hentry).elim
  | cons hreads hencoded hrest ih =>
    exact List.forall_mem_cons.2 ⟨⟨hreached, _, hencoded⟩, ih (hreached.next hencoded)⟩

/-- What is there was found. -/
theorem exists_of_instructionAt (hswept : Swept pool code 0 swept) (hsize : code.length < 65536)
    {offset : Nat} {instruction : Instruction Int}
    (hinstruction : InstructionAt pool code offset instruction) :
    ∃ entry ∈ swept, entry.1 = offset ∧ entry.2.located = instruction := by
  -- An offset that instructions lead to is the one of an index, as only one instruction can be read
  -- at each.
  have hindex : ∀ {offset : Nat}, Reached pool code offset → offset < code.length →
      ∃ (index : Nat) (entry : Nat × Instruction UInt16), swept[index]? = some entry ∧
        entry.1 = offset := by
    intro offset hreached hoffset
    induction hreached with
    | zero =>
      cases hentry : swept[0]? with
      | none =>
        have hzero := hswept.offsetsOf_zero
        rw [offsetsOf, hentry] at hzero
        exact absurd hzero (Nat.ne_of_gt hoffset)
      | some entry => exact ⟨0, entry, hentry, offsetsOf_of_getElem? hentry ▸ hswept.offsetsOf_zero⟩
    | next hstart hencoded ih =>
      obtain ⟨index, entry, hentry, rfl⟩ := ih (Nat.lt_of_lt_of_le hencoded.lt hencoded.le)
      obtain ⟨-, hstop⟩ := hencoded.eq_of_readsAt (hswept.encodedAt hentry).1 hsize
      cases hnext : swept[index + 1]? with
      | none =>
        rw [offsetsOf, hnext] at hstop
        exact absurd hstop (Nat.ne_of_lt hoffset)
      | some next =>
        rw [offsetsOf_of_getElem? hnext] at hstop
        exact ⟨index + 1, next, hnext, hstop.symm⟩
  obtain ⟨hreached, stop, hencoded⟩ := hinstruction
  obtain ⟨index, entry, hentry, rfl⟩ := hindex hreached (Nat.lt_of_lt_of_le hencoded.lt hencoded.le)
  obtain ⟨hlocated, -⟩ := hencoded.eq_of_readsAt (hswept.encodedAt hentry).1 hsize
  exact ⟨entry, List.mem_of_getElem? hentry, rfl, hlocated.symm⟩

end Swept

end JvmClass
