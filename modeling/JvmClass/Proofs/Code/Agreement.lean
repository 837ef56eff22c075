import JvmClass.Proofs.Code.Fidelity

/-!
# The passes agree

The sizes of instructions are said twice: by shape, in the pass that finds the targets, and by what
each instruction reads, in the pass that makes the list. Here both are compared. Wherever the two can
be done at an offset, whether or not an instruction starts there, they take the same bytes and find
the same targets. So the second pass of a disassembly comes to the offsets of the first, one after
the other, and every target that it looks up has a label.
-/

namespace JvmClass

/-! ### Renaming that goes well -/

theorem Reader.exists_of_mapM {α β : Type} {f : α → Reader β} {values : List α} {results : List β}
    {input next : Input} (hmapM : values.mapM f input = .ok (results, next)) :
    ∀ value ∈ values, ∃ before result, f value before = .ok result := by
  induction values generalizing results input next with
  | nil => exact fun _ hvalue => (List.not_mem_nil hvalue).elim
  | cons value values ih =>
    rw [List.mapM_cons] at hmapM
    obtain ⟨result, between, hresult, hrest⟩ := Reader.exists_of_bind hmapM
    obtain ⟨others, last, hothers, -⟩ := Reader.exists_of_bind hrest
    exact List.forall_mem_cons.2 ⟨⟨input, _, hresult⟩, ih hothers⟩

namespace Instruction

variable {τ σ : Type}

theorem exists_of_mapM {f : τ → Reader σ} {instruction : Instruction τ} {renamed : Instruction σ}
    {input next : Input} (hmapM : instruction.mapM f input = .ok (renamed, next)) :
    ∀ target ∈ instruction.targets, ∃ before result, f target before = .ok result := by
  cases instruction with
  | branch condition target =>
    rw [mapM, map_eq_pure_bind] at hmapM
    obtain ⟨first, between, hfirst, -⟩ := Reader.exists_of_bind hmapM
    exact List.forall_mem_singleton.2 ⟨input, _, hfirst⟩
  | jump op target =>
    rw [mapM, map_eq_pure_bind] at hmapM
    obtain ⟨first, between, hfirst, -⟩ := Reader.exists_of_bind hmapM
    exact List.forall_mem_singleton.2 ⟨input, _, hfirst⟩
  | tableSwitch otherwise low high targets =>
    obtain ⟨first, between, hfirst, hrest⟩ := Reader.exists_of_bind hmapM
    obtain ⟨others, last, hothers, -⟩ := Reader.exists_of_bind hrest
    exact List.forall_mem_cons.2 ⟨⟨input, _, hfirst⟩, Reader.exists_of_mapM hothers⟩
  | lookupSwitch otherwise cases =>
    obtain ⟨first, between, hfirst, hrest⟩ := Reader.exists_of_bind hmapM
    obtain ⟨others, last, hothers, -⟩ := Reader.exists_of_bind hrest
    refine List.forall_mem_cons.2 ⟨⟨input, _, hfirst⟩, List.forall_mem_map.2 fun entry hentry => ?_⟩
    obtain ⟨before, result, hentry⟩ := Reader.exists_of_mapM hothers entry hentry
    obtain ⟨label, after, hlabel, -⟩ := Reader.exists_of_bind hentry
    exact ⟨before, _, hlabel⟩
  | _ => exact fun _ htarget => (List.not_mem_nil htarget).elim

end Instruction

/-! ### One instruction -/

namespace Code

variable {pool : Pool} {labels : OffsetLabels}

/-- What is read with labels is an instruction all targets of which have labels. -/
theorem exists_read_of_readLabeled {offset : UInt16} {input next : Input}
    {labeled : Instruction Label}
    (hread : readLabeled pool labels offset input = .ok (labeled, next)) :
    ∃ instruction, Instruction.read pool offset input = .ok (instruction, next) ∧
      labeled = instruction.map labels.name ∧
      ∀ target ∈ instruction.targets, target ∈ labels.labels := by
  obtain ⟨instruction, between, hinstruction, hmapM⟩ := Reader.exists_of_bind hread
  have hlabels : ∀ target ∈ instruction.targets, target ∈ labels.labels := by
    intro target htarget
    obtain ⟨before, result, hresult⟩ := Instruction.exists_of_mapM hmapM target htarget
    by_contra hmem
    rw [OffsetLabels.getElem?_eq_none hmem] at hresult
    cases hresult
  have hlabeled := readLabeled_eq hinstruction hlabels
  rw [hread] at hlabeled
  cases hlabeled
  exact ⟨instruction, hinstruction, rfl, hlabels⟩

theorem map_some_targets {instruction : Instruction UInt16}
    (hlabels : ∀ target ∈ instruction.targets, target ∈ labels.labels) :
    (instruction.map labels.name).targets.map some =
      instruction.targets.map (labels.labels[·]?) := by
  rw [Instruction.targets_map, List.map_map]
  apply List.map_congr_left
  intro target htarget
  exact (OffsetLabels.getElem?_eq_some_name (hlabels target htarget)).symm

/-- **One instruction.** Where both passes go on from the same offset, they go on to the same place,
and the second has the labels of the targets that the first has found. -/
theorem agree_at {code : Bytes} {length : UInt16} {start : Nat} (hstart : start < 65536)
    {targets : List UInt16} {left next : Input} {labeled : Instruction Label}
    (hskip : Outline.readInstruction length (UInt16.ofNat start) ⟨start, code.drop start⟩ =
      .ok (targets, left))
    (hread : readLabeled pool labels (UInt16.ofNat start) ⟨start, code.drop start⟩ =
      .ok (labeled, next)) :
    next = left ∧ labeled.targets.map some = targets.map (labels.labels[·]?) := by
  obtain ⟨instruction, hinstruction, rfl, hlabels⟩ := exists_read_of_readLabeled hread
  obtain ⟨stop, rfl, rfl, -, rfl⟩ := encodedAt_of_read hstart hinstruction hskip
  exact ⟨rfl, map_some_targets hlabels⟩

/-! ### All instructions -/

theorem pairwise_offsets {code : Bytes} {start : Nat} {swept : List (Nat × Instruction UInt16)}
    (hswept : Swept pool code start swept) (hsize : code.length < 65536) :
    (swept.map fun entry => UInt16.ofNat entry.1).Pairwise (· < ·) := by
  rw [List.pairwise_map]
  have hbounds : ∀ entry ∈ swept, (UInt16.ofNat entry.1).toNat = entry.1 := by
    intro entry hentry
    exact UInt16.toNat_ofNat_of_lt' (Nat.lt_trans (hswept.bounds entry hentry).2 hsize)
  apply hswept.pairwise_lt.imp_of_mem
  intro first second hfirst hsecond hlt
  rwa [UInt16.lt_iff_toNat_lt, hbounds first hfirst, hbounds second hsecond]

/-- The passes agree. Where both can go on from an offset, they take the same bytes, and the targets
that the second looks up are those that the first has found. If bytecode can be disassembled, the
second pass comes to just the offsets of the first, in ascending order, and each target of the first
is looked up by the second and has a label. -/
theorem passes_agree (pool : Pool) (bytecode : CodeAttribute) :
    (∀ length labels, ∀ start < 65536, ∀ targets left instruction next,
      Outline.readInstruction length (UInt16.ofNat start) ⟨start, bytecode.code.drop start⟩ =
        .ok (targets, left) →
      readLabeled pool labels (UInt16.ofNat start) ⟨start, bytecode.code.drop start⟩ =
        .ok (instruction, next) →
      next = left ∧ instruction.targets.map some = targets.map (labels.labels[·]?)) ∧
    ∀ code, disassemble pool bytecode = .ok code →
      let length := UInt16.ofNat bytecode.code.length
      ∃ outline tables labels instructions,
        Outline.ofCode length bytecode.code = .ok outline ∧
        labelTables bytecode ((OffsetLabels.empty length).addAll outline.targets) =
          .ok (tables, labels) ∧
        sweep (readLabeled pool labels) bytecode.code = .ok instructions ∧
        code.lines.map CodeLine.instruction = instructions.map Prod.snd ∧
        (instructions.map Prod.fst).Pairwise (· < ·) ∧
        List.Forall₂ (fun skipped found => found.1 = skipped.1 ∧
          found.2.targets.map some = skipped.2.map (labels.labels[·]?)) outline instructions := by
  constructor
  · intro length labels start hstart targets left instruction next hskip hread
    exact agree_at hstart hskip hread
  · intro code hdisassemble length
    obtain ⟨hlength, outline, houtline, handlers, tables, frames, labels, htables, -, instructions,
      hsweep, rfl⟩ := disassemble_eq_ok_iff.1 hdisassemble
    have hsize := size_lt hlength
    have hlabels : labels = ((OffsetLabels.empty length).addAll outline.targets).addAll
        bytecode.tableOffsets := by
      obtain ⟨-, hfound⟩ := ((Labeling.Asks.allTables bytecode _).run _
        (OffsetLabels.length_addAll _) _).1 htables
      exact (Prod.mk.inj hfound).2.symm
    have hlabeled : ∀ entry ∈ outline, ∀ target ∈ entry.2, target ∈ labels.labels :=
      hlabels ▸ targets_labeled bytecode.tableOffsets
    obtain ⟨swept, hswept, houtlined, hinstructions⟩ := (sweepFrom_readLabeled hsize
      (Nat.zero_le _) (Nat.le_add_left ..) houtline hlabeled []).2 _ hsweep
    rw [List.reverse_nil, List.nil_append] at houtlined hinstructions
    refine ⟨outline, _, labels, instructions, houtline, htables, hsweep, ?_, ?_, ?_⟩
    · rw [ofRead, List.map_map]
      rfl
    · rw [hinstructions, List.map_map]
      exact pairwise_offsets hswept hsize
    · rw [houtlined] at hlabeled
      rw [houtlined, hinstructions, List.forall₂_map_left_iff, List.forall₂_map_right_iff,
        List.forall₂_same]
      intro entry hentry
      refine ⟨rfl, map_some_targets ?_⟩
      exact hlabeled _ (List.mem_map_of_mem hentry)

/-- A push of a byte that is the opcode of a jump. -/
def hiddenJump : CodeAttribute where
  maxStack := 2
  maxLocals := 0
  code := [0x10, 0xa7, 0x00, 0x03, 0xb1]
  exceptionTable := []
  attributes := []

theorem readLabeled_hiddenJump (labels : OffsetLabels) (hlabel : 4 ∈ labels.labels) :
    readLabeled Pool.empty labels (UInt16.ofNat 1) ⟨1, hiddenJump.code.drop 1⟩ =
      .ok (.jump .goto (labels.name 4), ⟨4, [0xb1]⟩) := by
  have hreads : ReadsAt Pool.empty hiddenJump.code 1 (.jump .goto 4) 4 :=
    @readsAt_of_bytes _ _ 1 4 false ⟨0, 0⟩ (.jump .goto 4) (by decide) trivial
      (fun _ => by decide) (fun _ => rfl) rfl rfl (by decide)
  exact readLabeled_eq hreads (List.forall_mem_singleton.2 hlabel)

/-- Both passes agree on the jump in the push, where no instruction starts, and on the code that
counts down. -/
theorem passes_agree_hiddenJump :
    (∃ labels left, Outline.readInstruction 5 (UInt16.ofNat 1) ⟨1, hiddenJump.code.drop 1⟩ =
        .ok ([4], left) ∧
      readLabeled Pool.empty labels (UInt16.ofNat 1) ⟨1, hiddenJump.code.drop 1⟩ =
        .ok (.jump .goto (labels.name 4), left)) ∧
    ∃ code outline, disassemble Pool.empty countdownBytecode = .ok code ∧
      Outline.ofCode 11 countdownBytecode.code = .ok outline ∧
      outline.length = code.lines.length := by
  constructor
  · have hlabel : 4 ∈ ((OffsetLabels.empty 5).addAll [4]).labels :=
      OffsetLabels.mem_addAll.2 (.inl List.mem_cons_self)
    have hread := readLabeled_hiddenJump _ hlabel
    have hskip : Outline.readInstruction 5 (UInt16.ofNat 1) ⟨1, hiddenJump.code.drop 1⟩ =
        .ok ([4], ⟨4, [0xb1]⟩) := rfl
    exact ⟨_, _, hskip,
      ((passes_agree Pool.empty hiddenJump).1 5 _ 1 (by decide) _ _ _ _ hskip hread).1 ▸ hread⟩
  · obtain ⟨code, hdisassemble⟩ := exists_disassemble_countdown (assemble_countdown Pool.empty)
    obtain ⟨outline, tables, labels, instructions, houtline, -, -, hlines, -, hagree⟩ :=
      (passes_agree Pool.empty countdownBytecode).2 _ hdisassemble
    refine ⟨code, outline, hdisassemble, houtline, ?_⟩
    have hlength := congrArg List.length hlines
    rw [List.length_map, List.length_map] at hlength
    rw [hlength, hagree.length_eq]

end Code

end JvmClass
