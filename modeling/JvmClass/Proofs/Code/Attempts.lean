import JvmClass.Proofs.Code.ShortForms

/-!
# How many attempts there are

Lines are laid out again whenever a short branch or jump turns out to be too far from its target.
Nothing bounds the number of attempts as such, and from one attempt to the next offsets may go up or
down. But an attempt can only find something too far that was written short because it did not have
to be wide yet. So each attempt that is not the last makes another branch or jump wide, and there is
at most one attempt more than there are branches and jumps.
-/

namespace JvmClass

namespace Layout

variable {lines : List (CodeLine × Operand)} {endLabel : Option Label} {wide : Std.HashSet Nat}

/-! ### One attempt -/

/-- What one attempt comes to: it goes well or fails, or it finds a line that has to be wide. -/
inductive Outcome where
  | ended (result : Except Error Layout)
  | tooFar (index : Nat)

def attempt (lines : List (CodeLine × Operand)) (endLabel : Option Label)
    (wide : Std.HashSet Nat) : Outcome :=
  match ofLines wide lines endLabel with
  | .error error => .ended (.error error)
  | .ok layout =>
    match fillHoles layout.placement layout.code.size layout.holes.toList layout.code with
    | .error error => .ended (.error error)
    | .ok (.filled code) => .ended (.ok { layout with code := code })
    | .ok (.tooFar index) => .tooFar index

/-- **One attempt.** What is found too far is a branch or jump ahead that was written short. -/
theorem exists_isTooFar_of_attempt {index : Nat}
    (hattempt : attempt lines endLabel wide = .tooFar index) :
    ∃ offsets layout place, Complete wide lines endLabel offsets layout ∧
      isRelaxableAt lines index ∧
      IsTooFar wide lines (marksOf lines endLabel) offsets index place := by
  unfold attempt at hattempt
  split at hattempt
  · cases hattempt
  · rename_i layout hlayout
    split at hattempt
    · cases hattempt
    · cases hattempt
    · rename_i found hfill
      cases hattempt
      obtain ⟨offsets, hoffsets⟩ := exists_hasOffsets wide lines (marksOf lines endLabel)
      have hcomplete := complete_of_ofLines hoffsets hlayout
      obtain ⟨hrelaxable, place, hfar⟩ := hcomplete.isTooFar_of_fillHoles hfill
      exact ⟨offsets, layout, place, hcomplete, hrelaxable, hfar⟩

theorem isRelaxableAt_of_attempt {index : Nat}
    (hattempt : attempt lines endLabel wide = .tooFar index) :
    isRelaxableAt lines index ∧ wide.contains index = false := by
  obtain ⟨_, _, _, -, hrelaxable, hfar⟩ := exists_isTooFar_of_attempt hattempt
  exact ⟨hrelaxable, hfar.narrow⟩

theorem exists_fillHoles_of_attempt {layout : Layout}
    (hattempt : attempt lines endLabel wide = .ended (.ok layout)) :
    ∃ last, ofLines wide lines endLabel = .ok last ∧
      fillHoles last.placement last.code.size last.holes.toList last.code =
        .ok (.filled layout.code) := by
  unfold attempt at hattempt
  split at hattempt
  · cases hattempt
  · rename_i last hlast
    split at hattempt
    · cases hattempt
    · rename_i code hfill
      cases hattempt
      exact ⟨last, hlast, hfill⟩
    · cases hattempt

theorem exists_settled_of_attempt {layout : Layout}
    (hattempt : attempt lines endLabel wide = .ended (.ok layout)) :
    ∃ offsets last, Settled wide lines endLabel offsets last := by
  obtain ⟨last, hlast, hfill⟩ := exists_fillHoles_of_attempt hattempt
  obtain ⟨offsets, hsettled, -⟩ := exists_settled_of_fillHoles hlast hfill
  exact ⟨offsets, last, hsettled⟩

theorem settle_eq (lines : List (CodeLine × Operand)) (endLabel : Option Label)
    (wide : Std.HashSet Nat) :
    settle lines endLabel wide =
      match attempt lines endLabel wide with
      | .ended result => result
      | .tooFar index => settle lines endLabel (wide.insert index) := by
  cases hlayout : ofLines wide lines endLabel with
  | error error => rw [settle, attempt, hlayout]
  | ok layout =>
    cases hfill : fillHoles layout.placement layout.code.size layout.holes.toList layout.code with
    | error error => simp only [settle, attempt, hlayout, hfill]
    | ok filling =>
      cases filling with
      | filled code => simp only [settle, attempt, hlayout, hfill]
      | tooFar index =>
        have hattempt : attempt lines endLabel wide = .tooFar index := by
          simp only [attempt, hlayout, hfill]
        rw [hattempt, settle, hlayout]
        simp only [hfill]
        exact dif_pos (isRelaxableAt_of_attempt hattempt)

/-! ### All attempts -/

/-- So many attempts, from the first one on, were too far, and led to this set of wide lines. -/
inductive Retried (lines : List (CodeLine × Operand)) (endLabel : Option Label) :
    Nat → Std.HashSet Nat → Prop
  | first : Retried lines endLabel 0 ∅
  | again {tries : Nat} {wide : Std.HashSet Nat} {index : Nat}
      (hbefore : Retried lines endLabel tries wide)
      (hattempt : attempt lines endLabel wide = .tooFar index) :
      Retried lines endLabel (tries + 1) (wide.insert index)

namespace Retried

variable {tries : Nat}

theorem size_eq (hretried : Retried lines endLabel tries wide) : wide.size = tries := by
  induction hretried with
  | first => exact Std.HashSet.size_empty
  | @again tries wide index _ hattempt ih =>
    have hnew : index ∉ wide := by
      simp [Std.HashSet.mem_iff_contains, (isRelaxableAt_of_attempt hattempt).2]
    rw [Std.HashSet.size_insert, if_neg hnew, ih]

theorem attempted (hretried : Retried lines endLabel tries wide) :
    Attempted lines endLabel wide := by
  induction hretried with
  | first => exact .first
  | again _ hattempt ih =>
    obtain ⟨offsets, layout, place, hcomplete, -, hfar⟩ := exists_isTooFar_of_attempt hattempt
    exact .again ih hcomplete hfar

/-- Each attempt leaves one line less that may be short. -/
theorem add_length_le (hretried : Retried lines endLabel tries wide) :
    tries + (shortIndices lines wide).length ≤ (relaxableIndices lines).length := by
  induction hretried with
  | first =>
    rw [Nat.zero_add]
    exact List.length_filter_le _ _
  | again _ hattempt ih =>
    obtain ⟨hrelaxable, hshort⟩ := isRelaxableAt_of_attempt hattempt
    have hless := length_shortIndices_insert_lt hrelaxable hshort
    omega

/-- **All attempts.** After some that were too far there is one that ends, and it ends with what
settling comes to. -/
theorem exists_ended (hretried : Retried lines endLabel tries wide) :
    ∃ total last, Retried lines endLabel total last ∧
      attempt lines endLabel last = .ended (settle lines endLabel wide) := by
  -- By the number of lines that may still be short.
  induction hcount : (shortIndices lines wide).length using Nat.strongRecOn generalizing tries wide
    with
  | ind count ih =>
    rw [settle_eq]
    cases hattempt : attempt lines endLabel wide with
    | ended result => exact ⟨tries, wide, hretried, hattempt⟩
    | tooFar index =>
      obtain ⟨hrelaxable, hshort⟩ := isRelaxableAt_of_attempt hattempt
      have hless := length_shortIndices_insert_lt hrelaxable hshort
      exact ih _ (hcount ▸ hless) (hretried.again hattempt) rfl

end Retried

end Layout

namespace Code

theorem length_relaxableIndices_zip {lines : List CodeLine} {operands : List Operand}
    (hlength : lines.length = operands.length) :
    (relaxableIndices (lines.zip operands)).length =
      lines.countP (·.instruction.isRelaxable) := by
  have hsome : ∀ item : (CodeLine × Operand) × Nat,
      (if item.1.1.instruction.isRelaxable then some item.2 else none).isSome =
        item.1.1.instruction.isRelaxable := by
    intro item
    cases item.1.1.instruction.isRelaxable <;> rfl
  have hlines : ((lines.zip operands).zipIdx.map Prod.fst).map Prod.fst = lines := by
    rw [List.zipIdx_map_fst, List.map_fst_zip (Nat.le_of_eq hlength)]
  rw [relaxableIndices, List.length_filterMap_eq_countP]
  simp only [hsome]
  rw [← hlines, List.countP_map, List.countP_map]
  simp only [hlines]
  rfl

/-- **Attempts.** As long as attempts are too far, each finds another branch or jump that was not
wide before, so there are no more of them than branches and jumps. The one that comes after them
goes well or fails, and that is what settling comes to. -/
theorem attempts_of_putOperands {code : Code} {pool final : Pool} {operands : List Operand}
    (hput : (putOperands code.lines).run pool = (.ok operands, final)) :
    let lines := code.lines.zip operands
    let branches := code.lines.countP (·.instruction.isRelaxable)
    (∀ tries wide, Layout.Retried lines code.endLabel tries wide →
      tries ≤ branches ∧ wide.size = tries ∧
        ∀ index, Layout.attempt lines code.endLabel wide = .tooFar index →
          index ∉ wide ∧ ∃ line, code.lines[index]? = some line ∧ line.instruction.isRelaxable) ∧
      ∃ tries ≤ branches, ∃ wide, Layout.Retried lines code.endLabel tries wide ∧
        Layout.attempt lines code.endLabel wide =
          .ended (Layout.settle lines code.endLabel ∅) := by
  intro lines branches
  have hlength : code.lines.length = operands.length := (operandsIn_of_putOperands hput).length_eq
  have htries : ∀ tries wide, Layout.Retried lines code.endLabel tries wide → tries ≤ branches := by
    intro tries wide hretried
    have hle := hretried.add_length_le
    rw [length_relaxableIndices_zip hlength] at hle
    exact Nat.le_of_add_right_le hle
  refine ⟨fun tries wide hretried => ⟨htries tries wide hretried, hretried.size_eq, ?_⟩, ?_⟩
  · intro index hattempt
    obtain ⟨hrelaxable, hshort⟩ := Layout.isRelaxableAt_of_attempt hattempt
    obtain ⟨⟨line, operand⟩, hline, hrelaxable⟩ := (Option.any_eq_true _ _).1 hrelaxable
    refine ⟨by simp [Std.HashSet.mem_iff_contains, hshort], line, ?_, hrelaxable⟩
    exact (List.getElem?_zip_eq_some.1 hline).1
  · obtain ⟨tries, wide, hretried, hended⟩ := Layout.Retried.first.exists_ended
    exact ⟨tries, htries tries wide hretried, wide, hretried, hended⟩

namespace Shrinking

theorem isRelaxable_iff {index : Nat} :
    (shrinkingLine index).instruction.isRelaxable ↔ index = 0 ∨ index = 10 := by
  unfold shrinkingLine
  split_ifs <;> simp_all [Instruction.isRelaxable]

theorem countP_isRelaxable : shrinking.lines.countP (·.instruction.isRelaxable) = 2 := by
  have hsplit : List.range 32766 = List.range 11 ++ List.range' 11 32755 := by
    rw [List.range_eq_range', List.range_eq_range', List.range'_append_1]
  have hfirst : (List.range 11).countP
      (fun index => (shrinkingLine index).instruction.isRelaxable) = 2 := by
    decide
  have hrest : (List.range' 11 32755).countP
      (fun index => (shrinkingLine index).instruction.isRelaxable) = 0 := by
    rw [List.countP_eq_zero]
    intro index hindex
    have hle := (List.mem_range'_1.1 hindex).1
    rw [isRelaxable_iff]
    omega
  simp only [shrinking, List.countP_map, hsplit, List.countP_append, Function.comp_def]
  rw [hfirst, hrest]

end Shrinking

/-- The bound is met: there are two branches and jumps, both of which are found too far, and the
third attempt goes well. -/
theorem attempts_shrinking :
    (putOperands shrinking.lines).run Pool.empty =
        (.ok (List.replicate 32766 ⟨0, 0⟩), Pool.empty) ∧
      shrinking.lines.countP (·.instruction.isRelaxable) = 2 ∧
      ∃ wide layout, Layout.Retried Shrinking.lines none 2 wide ∧
        Layout.attempt Shrinking.lines none wide = .ended (.ok layout) := by
  obtain ⟨-, tries, htries, wide, hretried, hended⟩ :=
    attempts_of_putOperands Shrinking.run_putOperands
  obtain ⟨bytecode, hlayOut⟩ := Shrinking.exists_layOut
  obtain ⟨layout, hsettle, -⟩ := layOut_eq_ok_iff.1 hlayOut
  rw [Shrinking.countP_isRelaxable] at htries
  rw [hsettle] at hended
  change Layout.Retried Shrinking.lines none tries wide at hretried
  refine ⟨Shrinking.run_putOperands, Shrinking.countP_isRelaxable, wide, _, ?_, hended⟩
  obtain ⟨offsets, last, hsettled⟩ := Layout.exists_settled_of_attempt hended
  obtain ⟨hbranch, hjump⟩ := Shrinking.both_wide_of_settled hretried.attempted hsettled
  -- With fewer than two attempts before it, not both could be wide.
  cases hretried with
  | first => simp at hbranch
  | again hbefore hattempt =>
    cases hbefore with
    | first =>
      simp only [Std.HashSet.contains_insert, Std.HashSet.contains_empty, Bool.or_false,
        beq_iff_eq] at hbranch hjump
      omega
    | @again tries _ _ hbefore hfirst =>
      obtain rfl : tries = 0 := by omega
      exact (hbefore.again hfirst).again hattempt

end Code

end JvmClass
