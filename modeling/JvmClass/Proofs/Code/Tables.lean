import JvmClass.Proofs.Code.Assembly
import JvmClass.Proofs.Code.Labeling

/-!
# Tables of assembled code

Reading the tables of bytecode back. Each asks for the labels of the offsets in it and turns into the
table it was made from, up to the names of labels; a variable has one form of its type then.
-/

namespace JvmClass

/-! ### What tables do not tell -/

def ExceptionHandler.rename (f : Label → Label) (handler : ExceptionHandler) : ExceptionHandler :=
  ⟨f handler.start, f handler.stop, f handler.handler, handler.catchType⟩

def Variable.rename (f : Label → Label) (source : Variable) : Variable :=
  { source with range := ⟨f source.range.start, f source.range.stop⟩ }

def Variable.described (sources : List Variable) : List Variable :=
  sources.filterMap fun source => source.descriptor.map fun type =>
    { source with descriptor := some type, signature := none }

def Variable.signed (sources : List Variable) : List Variable :=
  sources.filterMap fun source => source.signature.map fun type =>
    { source with descriptor := none, signature := some type }

/-- Variables with one form of type each, descriptors first. -/
def Variable.split (sources : List Variable) : List Variable :=
  described sources ++ signed sources

theorem Variable.exists_of_mem_split {sources : List Variable} {source : Variable}
    (hsource : source ∈ split sources) : ∃ other ∈ sources, other.range = source.range := by
  obtain hmem | hmem := List.mem_append.1 hsource
  · obtain ⟨other, hother, hmap⟩ := List.mem_filterMap.1 hmem
    obtain ⟨type, -, rfl⟩ := Option.map_eq_some_iff.1 hmap
    exact ⟨other, hother, rfl⟩
  · obtain ⟨other, hother, hmap⟩ := List.mem_filterMap.1 hmem
    obtain ⟨type, -, rfl⟩ := Option.map_eq_some_iff.1 hmap
    exact ⟨other, hother, rfl⟩

theorem Variable.split_rename (rename : Label → Label) (sources : List Variable) :
    split (sources.map (Variable.rename rename)) =
      (split sources).map (Variable.rename rename) := by
  have hdescribed : described (sources.map (Variable.rename rename)) =
      (described sources).map (Variable.rename rename) := by
    rw [described, described, List.filterMap_map, List.map_filterMap]
    refine List.filterMap_congr fun source _ => ?_
    rw [Option.map_map]
    rfl
  have hsigned : signed (sources.map (Variable.rename rename)) =
      (signed sources).map (Variable.rename rename) := by
    rw [signed, signed, List.filterMap_map, List.map_filterMap]
    refine List.filterMap_congr fun source _ => ?_
    rw [Option.map_map]
    rfl
  rw [split, split, hdescribed, hsigned, List.map_append]

namespace Code

def splitVariables (code : Code) : Code :=
  { code with localVariables := code.localVariables.map Variable.split }

theorem tableReferences_splitVariables_subset (code : Code) :
    code.splitVariables.tableReferences ⊆ code.tableReferences := by
  intro label hlabel
  unfold tableReferences at hlabel ⊢
  simp only [List.mem_append] at hlabel ⊢
  obtain (hlabel | hlabel) | hlabel := hlabel
  · exact .inl (.inl hlabel)
  · refine .inl (.inr ?_)
    obtain ⟨source, hsource, hlabel⟩ := List.mem_flatMap.1 hlabel
    cases hvariables : code.localVariables with
    | none =>
      rw [splitVariables, hvariables] at hsource
      cases hsource
    | some sources =>
      rw [splitVariables, hvariables] at hsource
      obtain ⟨other, hother, hrange⟩ := Variable.exists_of_mem_split hsource
      exact List.mem_flatMap.2 ⟨other, hother, hrange ▸ hlabel⟩
  · exact .inr hlabel

section

variable (code : Code) (offsets : Nat → Nat) (offsetOf : Label → UInt16) (frames : List StackMapFrame)
  (name : UInt16 → Label)

def foundFrames : List (UInt16 × Frame Label) :=
  code.framedLines.map fun (index, frame) =>
    (UInt16.ofNat (offsets index), frame.map fun label => name (offsetOf label))

def foundLines : Option (Array (Label × UInt16)) :=
  code.lineNumbers.map fun lines =>
    (lines.map fun (label, line) => (name (offsetOf label), line)).toArray

def foundVariables : Option (Array Variable) :=
  code.splitVariables.localVariables.map fun sources =>
    (sources.map (Variable.rename fun label => name (offsetOf label))).toArray

def foundTables : CodeTables :=
  ⟨if frames.isEmpty then none else some frames, code.foundLines offsetOf name,
    code.foundVariables offsetOf name, code.attributes.toArray⟩

end

end Code

theorem Code.origins_eq (code : Code) :
    code.origins = code.framedLines.flatMap fun framed => framed.2.origins := by
  unfold origins framedLines
  nth_rewrite 1 [← List.zipIdx_map_fst 0 code.lines]
  rw [List.flatMap_map]
  induction code.lines.zipIdx with
  | nil => rfl
  | cons line lines ih =>
    rw [List.flatMap_cons, ih, List.filterMap_cons]
    cases hframe : line.1.frame <;> simp [hframe]

/-- The offsets in the tables of code are within it. Only ranges may end right after it. -/
structure Code.TablesWithin (code : Code) (length : UInt16) (offsetOf : Label → UInt16) : Prop where
  handlers : ∀ handler ∈ code.handlers, offsetOf handler.start < length ∧
    offsetOf handler.stop ≤ length ∧ offsetOf handler.handler < length
  lineNumbers : ∀ line ∈ code.lineNumbers.getD [], offsetOf line.1 < length
  localVariables : ∀ source ∈ code.splitVariables.localVariables.getD [],
    offsetOf source.range.start < length ∧ offsetOf source.range.stop ≤ length
  origins : ∀ origin ∈ code.origins, offsetOf origin < length

namespace Code.Assembled

variable {code : Code} {pool : Pool} {bytecode : CodeAttribute} {offsets : Nat → Nat}
  {offsetOf : Label → UInt16}

theorem ofNat_inj (hassembled : code.Assembled pool bytecode offsets offsetOf) {first second : Nat}
    (hfirst : first ≤ code.lines.length) (hsecond : second ≤ code.lines.length)
    (heq : UInt16.ofNat (offsets first) = UInt16.ofNat (offsets second)) : first = second := by
  have hnat := congrArg UInt16.toNat heq
  rw [hassembled.toNat_offset hfirst, hassembled.toNat_offset hsecond] at hnat
  exact hassembled.offsets_inj hfirst hsecond hnat

theorem getElem?_foundFrames_eq_none {offset : UInt16}
    (hoffset : ∀ framed ∈ code.framedLines, UInt16.ofNat (offsets framed.1) ≠ offset)
    (name : UInt16 → Label) :
    (Std.HashMap.ofList (code.foundFrames offsets offsetOf name))[offset]? = none := by
  refine Std.HashMap.getElem?_ofList_of_contains_eq_false ?_
  rw [foundFrames, List.map_map, List.contains_eq_mem, decide_eq_false_iff_not]
  intro hmem
  obtain ⟨framed, hframed, heq⟩ := List.mem_map.1 hmem
  exact hoffset framed hframed heq

theorem framedLines_lt {framed : Nat × Frame Label} (hframed : framed ∈ code.framedLines) :
    framed.1 < code.lines.length := by
  obtain ⟨line, hline, -⟩ := mem_framedLines_iff.1 hframed
  exact (List.getElem?_eq_some_iff.1 hline).1

theorem getElem?_foundFrames (hassembled : code.Assembled pool bytecode offsets offsetOf)
    (name : UInt16 → Label) {index : Nat} {line : CodeLine}
    (hline : code.lines[index]? = some line) :
    (Std.HashMap.ofList (code.foundFrames offsets offsetOf name))[UInt16.ofNat (offsets index)]? =
      line.frame.map (Frame.map fun label => name (offsetOf label)) := by
  have hindex := (List.getElem?_eq_some_iff.1 hline).1
  cases hframe : line.frame with
  | some frame =>
    refine Std.HashMap.getElem?_ofList_of_mem (beq_self_eq_true _) ?_ ?_
    · rw [foundFrames, List.pairwise_map]
      refine (framedLines_pairwise code).imp_of_mem fun hfirst hsecond hne => ?_
      refine beq_eq_false_iff_ne.2 fun heq => Nat.ne_of_lt hne ?_
      exact hassembled.ofNat_inj (Nat.le_of_lt (framedLines_lt hfirst))
        (Nat.le_of_lt (framedLines_lt hsecond)) heq
    · exact List.mem_map.2 ⟨(index, frame), mem_framedLines_iff.2 ⟨line, hline, hframe⟩, rfl⟩
  | none =>
    refine getElem?_foundFrames_eq_none (fun framed hframed heq => ?_) name
    obtain ⟨other, hother, hsome⟩ := mem_framedLines_iff.1 hframed
    have hplace := hassembled.ofNat_inj (Nat.le_of_lt (framedLines_lt hframed))
      (Nat.le_of_lt hindex) heq
    rw [hplace, hline] at hother
    rw [← Option.some.inj hother, hframe] at hsome
    cases hsome

end Code.Assembled

/-- Tables that are part of the list of instructions. -/
def AttributeValue.isCodeTable : AttributeValue → Bool
  | .stackMapTable _ | .lineNumberTable _ | .localVariableTable _ | .localVariableTypeTable _ => true
  | _ => false

/-! ### Labels of tables -/

theorem StackMapFrame.offset?_eq (previous : Option UInt16) (frame : StackMapFrame) :
    frame.offset? previous =
      if previous.elim frame.offsetDelta.toNat (·.toNat + frame.offsetDelta.toNat + 1) < 65536 then
        some (UInt16.ofNat
          (previous.elim frame.offsetDelta.toNat (·.toNat + frame.offsetDelta.toNat + 1)))
      else none := by
  cases previous with
  | none => simp [offset?, frame.offsetDelta.toNat_lt]
  | some previous => rfl

namespace CodeTables

def withVariables (tables : CodeTables) (found : List Variable) : CodeTables :=
  { tables with localVariables := some (tables.localVariables.getD #[] ++ found) }

theorem withVariables_append (tables : CodeTables) (first second : List Variable) :
    (tables.withVariables first).withVariables second = tables.withVariables (first ++ second) := by
  simp only [withVariables, Option.getD_some, ← Array.toList_inj, CodeTables.mk.injEq,
    Option.some.injEq, Array.toList_appendList, List.append_assoc, and_self]

theorem add_localVariableTable (tables : CodeTables) (name : Text) (rows : List LocalVariable) :
    tables.add ⟨name, .localVariableTable rows⟩ =
      tables.withVariables <$> rows.mapM Labeling.describedVariable :=
  (map_eq_pure_bind _ _).symm

theorem add_localVariableTypeTable (tables : CodeTables) (name : Text)
    (rows : List LocalVariable) :
    tables.add ⟨name, .localVariableTypeTable rows⟩ =
      tables.withVariables <$> rows.mapM Labeling.signedVariable :=
  (map_eq_pure_bind _ _).symm

theorem foldlM_others {others : List Attribute}
    (hothers : ∀ other ∈ others, other.value.isCodeTable = false) (tables : CodeTables) :
    others.foldlM add tables =
      (pure { tables with others := tables.others ++ others } : Labeling CodeTables) := by
  induction others generalizing tables with
  | nil => simp
  | cons other others ih =>
    obtain ⟨hother, hothers⟩ := List.forall_mem_cons.1 hothers
    have hadd : tables.add other =
        (pure { tables with others := tables.others.push other } : Labeling CodeTables) := by
      obtain ⟨name, value⟩ := other
      cases value <;> first | rfl | cases hother
    rw [List.foldlM_cons, hadd, pure_bind, ih hothers]
    simp

theorem foldlM_frameTables {tables : CodeTables} (hnone : tables.frames = none)
    (frames : List StackMapFrame) :
    (frameTables frames).foldlM add tables =
      (pure { tables with frames := if frames.isEmpty then none else some frames } :
        Labeling CodeTables) := by
  cases frames with
  | nil =>
    obtain ⟨_, _, _, _⟩ := tables
    subst hnone
    rfl
  | cons frame frames =>
    simp only [frameTables, List.foldlM_cons, List.foldlM_nil, bind_pure, add, hnone]
    rfl

end CodeTables

/-- Both tables of variables can be there, even if one is empty. -/
theorem Variable.foldlM_tables (offsetOf : Label → UInt16) (sources : List Variable)
    (tables : CodeTables) :
    (Variable.tables offsetOf sources).foldlM CodeTables.add tables =
      (sources.filterMap fun source => source.descriptor.map (source.row offsetOf)).mapM
          Labeling.describedVariable >>= fun described =>
        (sources.filterMap fun source => source.signature.map (source.row offsetOf)).mapM
            Labeling.signedVariable >>= fun signed =>
          pure (tables.withVariables (described ++ signed)) := by
  unfold Variable.tables
  generalize (sources.filterMap fun source => source.descriptor.map (source.row offsetOf)) =
    described
  generalize (sources.filterMap fun source => source.signature.map (source.row offsetOf)) = signed
  cases described <;> cases signed <;>
    simp only [List.foldlM_cons, List.foldlM_nil, CodeTables.add_localVariableTable,
      CodeTables.add_localVariableTypeTable, map_eq_pure_bind, bind_assoc, pure_bind, bind_pure,
      CodeTables.withVariables_append, List.mapM_nil, List.nil_append, List.append_nil]

namespace Labeling.Asks

variable {length : UInt16} {offsetOf : Label → UInt16}

theorem handlers (handlers : List ExceptionHandler) :
    Asks ((handlers.map (·.entry offsetOf)).mapM Labeling.handler) length
      (∀ handler ∈ handlers, offsetOf handler.start < length ∧ offsetOf handler.stop ≤ length ∧
        offsetOf handler.handler < length)
      (handlers.flatMap fun handler =>
        [offsetOf handler.start, offsetOf handler.stop, offsetOf handler.handler])
      fun name => handlers.map (ExceptionHandler.rename fun label => name (offsetOf label)) := by
  refine ((mapM fun entry _ => handler entry).of_iff ?_ ?_).of_eq fun name => ?_
  · simp [ExceptionHandler.entry]
  · rw [List.flatMap_map]
    rfl
  · rw [List.map_map]
    rfl

theorem lineNumbers (lines : List (Label × UInt16)) :
    Asks ((lines.map fun (label, line) => LineNumber.mk (offsetOf label) line).mapM
      Labeling.lineNumber) length (∀ line ∈ lines, offsetOf line.1 < length)
      (lines.map fun line => offsetOf line.1)
      fun name => lines.map fun (label, line) => (name (offsetOf label), line) := by
  refine ((mapM fun row _ => lineNumber row).of_iff ?_ ?_).of_eq fun name => ?_
  · rw [List.forall_mem_map]
  · rw [List.flatMap_map, ← List.map_eq_flatMap]
  · rw [List.map_map]
    rfl

theorem rows {read : LocalVariable → Labeling Variable} {typeOf : Variable → Option Text}
    {single : Variable → Text → Variable}
    (hread : ∀ source type, offsetOf source.range.start ≤ offsetOf source.range.stop →
      Asks (read (source.row offsetOf type)) length
        (offsetOf source.range.start < length ∧ offsetOf source.range.stop ≤ length)
        [offsetOf source.range.start, offsetOf source.range.stop]
        fun name => (single source type).rename fun label => name (offsetOf label))
    (hrange : ∀ source type, (single source type).range = source.range)
    (sources : List Variable)
    (hle : ∀ source ∈ sources, offsetOf source.range.start ≤ offsetOf source.range.stop) :
    Asks ((sources.filterMap fun source => (typeOf source).map (source.row offsetOf)).mapM read)
      length
      (∀ source ∈ sources.filterMap fun source => (typeOf source).map (single source),
        offsetOf source.range.start < length ∧ offsetOf source.range.stop ≤ length)
      ((sources.filterMap fun source => (typeOf source).map (single source)).flatMap fun source =>
        [offsetOf source.range.start, offsetOf source.range.stop])
      fun name => (sources.filterMap fun source => (typeOf source).map (single source)).map
        (Variable.rename fun label => name (offsetOf label)) := by
  induction sources with
  | nil => exact (pure []).of_iff (by simp) rfl
  | cons source sources ih =>
    obtain ⟨hsource, hsources⟩ := List.forall_mem_cons.1 hle
    cases htype : typeOf source with
    | none =>
      simp only [List.filterMap_cons, htype, Option.map_none]
      exact ih hsources
    | some type =>
      simp only [List.filterMap_cons, htype, Option.map_some, List.mapM_cons]
      refine Asks.of_iff (bind (fun found name => found ::
        (sources.filterMap fun source => (typeOf source).map (single source)).map
          (Variable.rename fun label => name (offsetOf label))) (hread source type hsource)
        fun name => (ih hsources).returning (_ :: ·)) ?_ ?_
      · rw [List.forall_mem_cons, hrange]
      · rw [List.flatMap_cons, hrange]

theorem describedVariable (source : Variable) (type : Text)
    (hle : offsetOf source.range.start ≤ offsetOf source.range.stop) :
    Asks (Labeling.describedVariable (source.row offsetOf type)) length
      (offsetOf source.range.start < length ∧ offsetOf source.range.stop ≤ length)
      [offsetOf source.range.start, offsetOf source.range.stop]
      fun name => Variable.rename (fun label => name (offsetOf label))
        { source with descriptor := some type, signature := none } :=
  (rangeAt hle).returning fun range =>
    Variable.mk range source.name (some type) none source.index

theorem signedVariable (source : Variable) (type : Text)
    (hle : offsetOf source.range.start ≤ offsetOf source.range.stop) :
    Asks (Labeling.signedVariable (source.row offsetOf type)) length
      (offsetOf source.range.start < length ∧ offsetOf source.range.stop ≤ length)
      [offsetOf source.range.start, offsetOf source.range.stop]
      fun name => Variable.rename (fun label => name (offsetOf label))
        { source with descriptor := none, signature := some type } :=
  (rangeAt hle).returning fun range =>
    Variable.mk range source.name none (some type) source.index

theorem lineNumberTables (code : Code) (tables : CodeTables) (hnone : tables.lineNumbers = none) :
    Asks ((code.lineNumberTables offsetOf).foldlM CodeTables.add tables) length
      (∀ line ∈ code.lineNumbers.getD [], offsetOf line.1 < length)
      ((code.lineNumbers.getD []).map fun line => offsetOf line.1)
      fun name => { tables with lineNumbers := code.foundLines offsetOf name } := by
  unfold Code.lineNumberTables Code.foundLines
  cases code.lineNumbers with
  | none =>
    refine ((pure tables).of_iff (by simp) rfl).of_eq fun name => ?_
    rw [Option.map_none, ← hnone]
  | some lines =>
    simp only [Option.map_some, List.foldlM_cons, List.foldlM_nil, bind_pure]
    refine ((lineNumbers lines).returning fun found =>
      { tables with lineNumbers := some (tables.lineNumbers.getD #[] ++ found) }).of_eq fun name => ?_
    rw [hnone]
    simp

theorem framesFrom (frames : List StackMapFrame) (index : Nat) (previous : Option UInt16)
    (found : List (UInt16 × Frame Label)) :
    Asks (Labeling.framesFrom index previous found frames) length
      (∀ frame ∈ StackMapFrame.placed (previous.map UInt16.toNat) frames,
        frame.1 < 65536 ∧ ∀ origin ∈ frame.2.origins, origin < length)
      ((StackMapFrame.placed (previous.map UInt16.toNat) frames).flatMap fun frame =>
        frame.2.origins)
      fun name => found.reverse ++
        (StackMapFrame.placed (previous.map UInt16.toNat) frames).map fun frame =>
          (UInt16.ofNat frame.1, frame.2.map name) := by
  induction frames generalizing index previous found with
  | nil =>
    refine ((pure found.reverse).of_iff ?_ rfl).of_eq fun name => ?_
    · simp [StackMapFrame.placed]
    · simp [StackMapFrame.placed]
  | cons first frames ih =>
    obtain ⟨delta, frame⟩ := first
    have hoffset := StackMapFrame.offset?_eq previous ⟨delta, frame⟩
    simp only [Labeling.framesFrom, StackMapFrame.placed, Option.elim_map, Function.comp_def]
    generalize previous.elim delta.toNat (·.toNat + delta.toNat + 1) = offset at hoffset ⊢
    by_cases hlt : offset < 65536
    · rw [if_pos hlt] at hoffset
      have hsome : (some (UInt16.ofNat offset)).map UInt16.toNat = some offset :=
        congrArg some (UInt16.toNat_ofNat_of_lt' hlt)
      rw [hoffset]
      refine ((bind (fun labeled name => ((UInt16.ofNat offset, labeled) :: found).reverse ++
        (StackMapFrame.placed (some offset) frames).map fun frame =>
          (UInt16.ofNat frame.1, frame.2.map name)) (during (.frame index) (Asks.frame frame))
        fun name => hsome ▸ ih (index + 1) (some (UInt16.ofNat offset)) _).of_iff ?_ rfl).of_eq
          fun name => ?_
      · rw [List.forall_mem_cons, and_iff_right hlt]
      · rw [List.reverse_cons, List.append_assoc]
        rfl
    · rw [if_neg hlt] at hoffset
      rw [hoffset]
      refine throw (fun hall => hlt (List.forall_mem_cons.1 hall).1.1) fun first second hnames => ?_
      refine congrArg (found.reverse ++ ·) (List.map_congr_left fun frame hframe => ?_)
      exact congrArg (UInt16.ofNat frame.1, ·) (Frame.map_congr fun origin horigin =>
        hnames origin (List.mem_flatMap.2 ⟨frame, hframe, horigin⟩))

theorem variableTables (code : Code) (tables : CodeTables) (hnone : tables.localVariables = none)
    (hle : ∀ source ∈ code.localVariables.getD [],
      offsetOf source.range.start ≤ offsetOf source.range.stop) :
    Asks ((code.variableTables offsetOf).foldlM CodeTables.add tables) length
      (∀ source ∈ code.splitVariables.localVariables.getD [],
        offsetOf source.range.start < length ∧ offsetOf source.range.stop ≤ length)
      ((code.splitVariables.localVariables.getD []).flatMap fun source =>
        [offsetOf source.range.start, offsetOf source.range.stop])
      fun name => { tables with localVariables := code.foundVariables offsetOf name } := by
  unfold Code.variableTables Code.foundVariables Code.splitVariables
  cases hsources : code.localVariables with
  | none =>
    refine ((pure tables).of_iff (by simp) rfl).of_eq fun name => ?_
    rw [Option.map_none, Option.map_none, ← hnone]
  | some sources =>
    rw [hsources] at hle
    simp only [Option.elim_some, Variable.foldlM_tables, Option.map_some, Option.getD_some,
      Variable.split, List.flatMap_append, List.map_append, List.forall_mem_append]
    refine (bind (fun found name => tables.withVariables (found ++
        (Variable.signed sources).map (Variable.rename fun label => name (offsetOf label))))
      (rows describedVariable (fun _ _ => rfl) sources hle) fun name =>
        (rows signedVariable (fun _ _ => rfl) sources hle).returning fun found =>
          tables.withVariables (_ ++ found)).of_eq fun name => ?_
    rw [CodeTables.withVariables, hnone]
    simp [Variable.described]

theorem ofAttributes (code : Code) (frames : List StackMapFrame)
    (hothers : ∀ other ∈ code.attributes, other.value.isCodeTable = false)
    (hle : ∀ source ∈ code.localVariables.getD [],
      offsetOf source.range.start ≤ offsetOf source.range.stop) :
    Asks (CodeTables.ofAttributes (code.lineNumberTables offsetOf ++ code.variableTables offsetOf
      ++ frameTables frames ++ code.attributes)) length
      ((∀ line ∈ code.lineNumbers.getD [], offsetOf line.1 < length) ∧
        ∀ source ∈ code.splitVariables.localVariables.getD [],
          offsetOf source.range.start < length ∧ offsetOf source.range.stop ≤ length)
      ((code.lineNumbers.getD []).map (fun line => offsetOf line.1) ++
        (code.splitVariables.localVariables.getD []).flatMap fun source =>
          [offsetOf source.range.start, offsetOf source.range.stop])
      (code.foundTables offsetOf frames) := by
  unfold CodeTables.ofAttributes
  simp only [List.append_assoc, List.foldlM_append]
  refine bind (fun tables name => CodeTables.mk (if frames.isEmpty then none else some frames)
    tables.lineNumbers (code.foundVariables offsetOf name) code.attributes.toArray)
    (lineNumberTables code CodeTables.empty rfl) fun lines => ?_
  refine (bind (fun tables _ => CodeTables.mk (if frames.isEmpty then none else some frames)
    tables.lineNumbers tables.localVariables code.attributes.toArray)
    (variableTables code ⟨none, _, none, #[]⟩ rfl hle)
    fun name => ?_).of_iff (and_iff_left trivial) (List.append_nil _)
  rw [CodeTables.foldlM_frameTables rfl, pure_bind, CodeTables.foldlM_others hothers]
  refine (pure _).of_eq fun _ => ?_
  simp

theorem framedLines {code : Code} {pool : Pool} {bytecode : CodeAttribute} {offsets : Nat → Nat}
    (hassembled : code.Assembled pool bytecode offsets offsetOf) {frames : List StackMapFrame}
    (hframes : StackMapFrame.placed none frames =
      code.framedLines.map fun (index, frame) => (offsets index, frame.map offsetOf)) :
    Asks (Labeling.framesFrom 0 none [] frames) length
      (∀ origin ∈ code.origins, offsetOf origin < length) (code.origins.map offsetOf)
      (code.foundFrames offsets offsetOf) := by
  have hasks : Asks (Labeling.framesFrom 0 none [] frames) length _ _ _ := framesFrom frames 0 none []
  rw [Option.map_none, hframes] at hasks
  refine (hasks.of_iff ?_ ?_).of_eq fun name => ?_
  · rw [List.forall_mem_map, Code.origins_eq]
    constructor
    · intro hall origin horigin
      obtain ⟨framed, hframed, horigin⟩ := List.mem_flatMap.1 horigin
      refine (hall framed hframed).2 _ ?_
      rw [Frame.origins_map]
      exact List.mem_map_of_mem horigin
    · intro hall framed hframed
      obtain ⟨line, hline, -⟩ := Code.mem_framedLines_iff.1 hframed
      have hle := hassembled.offsets_le (Nat.le_of_lt (List.getElem?_eq_some_iff.1 hline).1)
      refine ⟨Nat.lt_succ_of_le (Nat.le_trans hle hassembled.length_le), fun origin horigin => ?_⟩
      rw [Frame.origins_map] at horigin
      obtain ⟨label, hlabel, rfl⟩ := List.mem_map.1 horigin
      exact hall label (List.mem_flatMap.2 ⟨framed, hframed, hlabel⟩)
  · rw [List.flatMap_map, Code.origins_eq, List.map_flatMap]
    simp only [Frame.origins_map]
  · rw [List.reverse_nil, List.nil_append, List.map_map]
    refine List.map_congr_left fun framed _ => ?_
    exact congrArg (_, ·) (Frame.map_map _ _)

/-- **Tables.** The tables of assembled code turn into those it was assembled from. -/
theorem labelTables (length : UInt16) {code : Code} {pool : Pool} {bytecode : CodeAttribute}
    {offsets : Nat → Nat} (hassembled : code.Assembled pool bytecode offsets offsetOf)
    (hothers : ∀ other ∈ code.attributes, other.value.isCodeTable = false) :
    ∃ frames, Asks (Code.labelTables bytecode) length (code.TablesWithin length offsetOf)
      (code.splitVariables.tableReferences.map offsetOf) fun name =>
        (code.handlers.map (ExceptionHandler.rename fun label => name (offsetOf label)),
          code.foundTables offsetOf frames name, code.foundFrames offsets offsetOf name) := by
  obtain ⟨frames, hframes, hattributes⟩ := hassembled.attributes
  refine ⟨frames, ?_⟩
  have hlast : ∀ (first : List ExceptionHandler) (name : UInt16 → Label),
      Asks (Labeling.framesFrom 0 none [] ((code.foundTables offsetOf frames name).frames.getD [])
        >>= fun found => Pure.pure (first, code.foundTables offsetOf frames name, found)) length
        (∀ origin ∈ code.origins, offsetOf origin < length) (code.origins.map offsetOf)
        fun other => (first, code.foundTables offsetOf frames name,
          code.foundFrames offsets offsetOf other) := by
    intro first name
    rw [show (code.foundTables offsetOf frames name).frames.getD [] = frames by cases frames <;> rfl]
    exact (framedLines hassembled hframes).returning fun found =>
      (first, code.foundTables offsetOf frames name, found)
  unfold Code.labelTables
  rw [hassembled.exceptionTable, hattributes]
  refine Asks.of_iff (bind (fun found name => (found, code.foundTables offsetOf frames name,
      code.foundFrames offsets offsetOf name))
    ((handlers code.handlers).during .readingExceptionTable) fun first =>
      bind (fun found name => (_, found, code.foundFrames offsets offsetOf name))
        (ofAttributes code frames hothers hassembled.variables_le) fun second =>
          hlast _ second) ?_ ?_
  · constructor
    · rintro ⟨hhandlers, ⟨hlines, hvariables⟩, horigins⟩
      exact ⟨hhandlers, hlines, hvariables, horigins⟩
    · rintro ⟨hhandlers, hlines, hvariables, horigins⟩
      exact ⟨hhandlers, ⟨hlines, hvariables⟩, horigins⟩
  · simp [Code.tableReferences, List.map_flatMap]
    rfl

end Labeling.Asks

end JvmClass
