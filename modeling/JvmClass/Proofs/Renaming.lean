import JvmClass.Frame
import JvmClass.Instruction
import JvmClass.Proofs.Result

/-!
# Renaming targets

Instructions and frames name places, by label or by offset. `Instruction.map` and `Frame.map`
replace all names at once; a renaming that can fail, or that looks something up on the way, comes to
the same wherever it succeeds on every name that occurs.
-/

namespace JvmClass

variable {τ σ ρ : Type}

theorem mapM_list_eq_pure_map {α β : Type} {m : Type → Type} [Monad m] [LawfulMonad m] {f : α → m β}
    {g : α → β} {values : List α} (hf : ∀ value ∈ values, f value = pure (g value)) :
    values.mapM f = pure (values.map g) := by
  induction values with
  | nil => simp
  | cons value values ih =>
    have hrest : values.mapM f = pure (values.map g) :=
      ih fun other hother => hf other (List.mem_cons_of_mem _ hother)
    rw [List.mapM_cons, hf value List.mem_cons_self, hrest]
    simp

/-! ### Instructions -/

namespace Instruction

def map (f : τ → σ) : Instruction τ → Instruction σ
  | plain op => plain op
  | pushByte value => pushByte value
  | pushShort value => pushShort value
  | load constant => load constant
  | onVariable op index => onVariable op index
  | increment index amount => increment index amount
  | branch condition target => branch condition (f target)
  | jump op target => jump op (f target)
  | tableSwitch otherwise low high targets =>
    tableSwitch (f otherwise) low high (targets.map f)
  | lookupSwitch otherwise cases =>
    lookupSwitch (f otherwise) (cases.map fun (key, target) => (key, f target))
  | onField op field => onField op field
  | invokeVirtual method => invokeVirtual method
  | invokeSpecial method isInterface => invokeSpecial method isInterface
  | invokeStatic method isInterface => invokeStatic method isInterface
  | invokeInterface method => invokeInterface method
  | invokeDynamic site => invokeDynamic site
  | onClass op name => onClass op name
  | newArray type => newArray type
  | multiNewArray name dimensions => multiNewArray name dimensions

variable {f : τ → σ}

@[simp] theorem map_branch (condition : Condition) (target : τ) :
    (branch condition target).map f = branch condition (f target) := rfl

@[simp] theorem map_jump (op : JumpOp) (target : τ) :
    (jump op target).map f = jump op (f target) := rfl

@[simp] theorem map_tableSwitch (otherwise : τ) (low high : Int32) (targets : List τ) :
    (tableSwitch otherwise low high targets).map f =
      tableSwitch (f otherwise) low high (targets.map f) := rfl

@[simp] theorem map_lookupSwitch (otherwise : τ) (cases : List (Int32 × τ)) :
    (lookupSwitch otherwise cases).map f =
      lookupSwitch (f otherwise) (cases.map fun (key, target) => (key, f target)) := rfl

theorem targets_map (instruction : Instruction τ) :
    (instruction.map f).targets = instruction.targets.map f := by
  cases instruction with
  | tableSwitch otherwise low high targets => simp [Instruction.targets]
  | lookupSwitch otherwise cases => simp [Instruction.targets]
  | _ => rfl

/-- Renaming goes well if it does so for every target that occurs. -/
theorem mapM_eq_pure_map {m : Type → Type} [Monad m] [LawfulMonad m] {g : τ → m σ}
    {instruction : Instruction τ} (hg : ∀ target ∈ instruction.targets, g target = pure (f target)) :
    instruction.mapM g = pure (instruction.map f) := by
  cases instruction with
  | branch condition target => simp [mapM, hg target (by simp [targets])]
  | jump op target => simp [mapM, hg target (by simp [targets])]
  | tableSwitch otherwise low high targets =>
    simp only [Instruction.targets, List.mem_cons, forall_eq_or_imp] at hg
    simp [mapM, hg.1, mapM_list_eq_pure_map hg.2]
  | lookupSwitch otherwise cases =>
    simp only [Instruction.targets, List.mem_cons, forall_eq_or_imp, List.mem_map] at hg
    have hcases : (cases.mapM fun (key, target) => do return (key, ← g target)) =
        pure (cases.map fun (key, target) => (key, f target)) := by
      refine mapM_list_eq_pure_map ?_
      rintro ⟨key, target⟩ hmem
      simp [hg.2 target ⟨(key, target), hmem, rfl⟩]
    simp only [mapM, hg.1, pure_bind, hcases, map_lookupSwitch]
  | _ => rfl

theorem map_congr {g : τ → σ} {instruction : Instruction τ}
    (hfg : ∀ target ∈ instruction.targets, f target = g target) :
    instruction.map f = instruction.map g := by
  have hmap : (pure (instruction.map f) : Id (Instruction σ)) = pure (instruction.map g) := by
    rw [← mapM_eq_pure_map fun target _ => rfl]
    exact mapM_eq_pure_map fun target htarget => congrArg pure (hfg target htarget)
  exact hmap

theorem map_map (g : σ → ρ) (instruction : Instruction τ) :
    (instruction.map f).map g = instruction.map fun target => g (f target) := by
  cases instruction with
  | tableSwitch otherwise low high targets => simp
  | lookupSwitch otherwise cases => simp
  | _ => rfl

end Instruction

/-! ### Frames -/

namespace VerificationType

def map (f : τ → σ) : VerificationType τ → VerificationType σ
  | top => top
  | integer => integer
  | float => float
  | double => double
  | long => long
  | null => null
  | uninitializedThis => uninitializedThis
  | object name => object name
  | uninitialized origin => uninitialized (f origin)

def origins : VerificationType τ → List τ
  | uninitialized origin => [origin]
  | _ => []

theorem mapM_eq_pure_map {m : Type → Type} [Monad m] [LawfulMonad m] {f : τ → σ} {g : τ → m σ}
    {type : VerificationType τ} (hg : ∀ origin ∈ type.origins, g origin = pure (f origin)) :
    type.mapM g = pure (type.map f) := by
  cases type with
  | uninitialized origin =>
    simp [mapM, map, hg origin (by simp [origins])]
  | _ => rfl

theorem exists_of_mapM {g : τ → Except Error σ} {type : VerificationType τ}
    {result : VerificationType σ} (hmapM : type.mapM g = .ok result) {origin : τ}
    (horigin : origin ∈ type.origins) : ∃ value, g origin = .ok value := by
  cases type with
  | uninitialized other =>
    obtain rfl : origin = other := List.mem_singleton.1 horigin
    cases hvalue : g origin with
    | ok value => exact ⟨value, rfl⟩
    | error error =>
      rw [mapM, hvalue] at hmapM
      cases hmapM
  | _ => cases horigin

theorem origins_map (f : τ → σ) (type : VerificationType τ) :
    (type.map f).origins = type.origins.map f := by
  cases type <;> rfl

theorem map_map {f : τ → σ} (g : σ → ρ) (type : VerificationType τ) :
    (type.map f).map g = type.map fun origin => g (f origin) := by
  cases type <;> rfl

end VerificationType

namespace Frame

def map (f : τ → σ) : Frame τ → Frame σ
  | same => same
  | sameWithStack stack => sameWithStack (stack.map f)
  | chop removed => chop removed
  | append added => append (added.map (VerificationType.map f))
  | full locals stack =>
    full (locals.map (VerificationType.map f)) (stack.map (VerificationType.map f))

def origins : Frame τ → List τ
  | sameWithStack stack => stack.origins
  | append added => added.flatMap VerificationType.origins
  | full locals stack =>
    locals.flatMap VerificationType.origins ++ stack.flatMap VerificationType.origins
  | _ => []

variable {f : τ → σ}

private theorem mapM_types {m : Type → Type} [Monad m] [LawfulMonad m] {g : τ → m σ}
    {types : List (VerificationType τ)}
    (hg : ∀ origin ∈ types.flatMap VerificationType.origins, g origin = pure (f origin)) :
    types.mapM (VerificationType.mapM g) = pure (types.map (VerificationType.map f)) := by
  refine mapM_list_eq_pure_map fun type htype => VerificationType.mapM_eq_pure_map ?_
  intro origin horigin
  exact hg origin (List.mem_flatMap.2 ⟨type, htype, horigin⟩)

@[simp] theorem map_append (added : List (VerificationType τ)) :
    (append added).map f = append (added.map (VerificationType.map f)) := rfl

@[simp] theorem map_full (locals stack : List (VerificationType τ)) :
    (full locals stack).map f =
      full (locals.map (VerificationType.map f)) (stack.map (VerificationType.map f)) := rfl

theorem mapM_eq_pure_map {m : Type → Type} [Monad m] [LawfulMonad m] {g : τ → m σ}
    {frame : Frame τ} (hg : ∀ origin ∈ frame.origins, g origin = pure (f origin)) :
    frame.mapM g = pure (frame.map f) := by
  cases frame with
  | same => rfl
  | chop removed => rfl
  | sameWithStack stack => simp [mapM, map, VerificationType.mapM_eq_pure_map hg]
  | append added => simp [mapM, mapM_types hg]
  | full locals stack =>
    simp only [origins, List.mem_append] at hg
    have hlocals : locals.mapM (VerificationType.mapM g) = _ :=
      mapM_types fun origin horigin => hg origin (.inl horigin)
    have hstack : stack.mapM (VerificationType.mapM g) = _ :=
      mapM_types fun origin horigin => hg origin (.inr horigin)
    simp [mapM, hlocals, hstack]

theorem origins_map (f : τ → σ) (frame : Frame τ) :
    (frame.map f).origins = frame.origins.map f := by
  cases frame with
  | same => rfl
  | chop removed => rfl
  | sameWithStack stack => exact stack.origins_map f
  | append added =>
    simp [origins, List.flatMap_map, List.map_flatMap, VerificationType.origins_map]
  | full locals stack =>
    simp [origins, List.flatMap_map, List.map_flatMap, VerificationType.origins_map]

theorem map_map (g : σ → ρ) (frame : Frame τ) :
    (frame.map f).map g = frame.map fun origin => g (f origin) := by
  cases frame with
  | same => rfl
  | chop removed => rfl
  | sameWithStack stack => exact congrArg sameWithStack (stack.map_map g)
  | append added => simp [VerificationType.map_map]
  | full locals stack => simp [VerificationType.map_map]

theorem map_congr {g : τ → σ} {frame : Frame τ}
    (hfg : ∀ origin ∈ frame.origins, f origin = g origin) : frame.map f = frame.map g := by
  have hmap : (pure (frame.map f) : Id (Frame σ)) = pure (frame.map g) := by
    rw [← mapM_eq_pure_map fun origin _ => rfl]
    exact mapM_eq_pure_map fun origin horigin => congrArg pure (hfg origin horigin)
  exact hmap

private theorem exists_of_mapM_types {g : τ → Except Error σ} {types : List (VerificationType τ)}
    {results : List (VerificationType σ)}
    (hmapM : types.mapM (VerificationType.mapM g) = .ok results) {origin : τ}
    (horigin : origin ∈ types.flatMap VerificationType.origins) : ∃ value, g origin = .ok value := by
  obtain ⟨type, htype, horigin⟩ := List.mem_flatMap.1 horigin
  obtain ⟨result, hresult⟩ := Result.exists_of_mapM hmapM htype
  exact VerificationType.exists_of_mapM hresult horigin

theorem exists_of_mapM {g : τ → Except Error σ} {frame : Frame τ} {result : Frame σ}
    (hmapM : frame.mapM g = .ok result) {origin : τ} (horigin : origin ∈ frame.origins) :
    ∃ value, g origin = .ok value := by
  cases frame with
  | same => cases horigin
  | chop removed => cases horigin
  | sameWithStack stack =>
    obtain ⟨type, htype⟩ := Result.exists_of_map hmapM
    exact VerificationType.exists_of_mapM htype horigin
  | append added =>
    obtain ⟨types, htypes⟩ := Result.exists_of_map hmapM
    exact exists_of_mapM_types htypes horigin
  | full locals stack =>
    obtain ⟨types, hlocals, hrest⟩ := Result.exists_of_bind hmapM
    obtain ⟨others, hstack, -⟩ := Result.exists_of_bind hrest
    obtain horigin | horigin := List.mem_append.1 horigin
    · exact exists_of_mapM_types hlocals horigin
    · exact exists_of_mapM_types hstack horigin

end Frame

end JvmClass
