import JvmClass.Code.Disassembly
import JvmClass.Proofs.Renaming
import Mathlib.Data.List.Perm.Subperm

/-!
# Labels for offsets

Labels are given to offsets in the order that offsets are asked for, and an offset keeps its label.
So a computation that gives labels to offsets is described by the offsets it asks for and by what
it makes of their names, whatever names they turn out to have: `Labeling.Asks`. Different offsets
have different names.
-/

namespace JvmClass

namespace OffsetLabels

/-- Every label is the number of offsets that had one before it. -/
structure IsNumbered (labels : OffsetLabels) : Prop where
  nodup : labels.offsets.Nodup
  mem_iff : ∀ offset, offset ∈ labels.offsets ↔ offset ∈ labels.labels
  size_eq : labels.labels.size = labels.offsets.length
  id_lt : ∀ (offset : UInt16) (label : Label), labels.labels[offset]? = some label →
    label.id.toNat < labels.labels.size
  injective : ∀ (first second : UInt16) (label : Label), labels.labels[first]? = some label →
    labels.labels[second]? = some label → first = second

variable {labels : OffsetLabels}

theorem isNumbered_empty (length : UInt16) : (empty length).IsNumbered where
  nodup := List.nodup_nil
  mem_iff := by simp [empty]
  size_eq := by simp [empty]
  id_lt := by simp [empty]
  injective := by simp [empty]

theorem IsNumbered.size_le (hnumbered : labels.IsNumbered) : labels.labels.size ≤ 65536 := by
  have hnodup : (labels.offsets.map UInt16.toNat).Nodup :=
    List.pairwise_map.2 (hnumbered.nodup.imp fun hne heq => hne (UInt16.toNat_inj.1 heq))
  have hsubset : labels.offsets.map UInt16.toNat ⊆ List.range 65536 := by
    intro value hvalue
    obtain ⟨offset, -, rfl⟩ := List.mem_map.1 hvalue
    exact List.mem_range.2 offset.toNat_lt
  have hle := (hnodup.subperm hsubset).length_le
  rwa [List.length_map, List.length_range, ← hnumbered.size_eq] at hle

theorem IsNumbered.insert (hnumbered : labels.IsNumbered) {offset : UInt16}
    (hnew : labels.labels[offset]? = none) :
    IsNumbered ⟨labels.length,
      labels.labels.insert offset ⟨UInt32.ofNat labels.labels.size⟩,
      offset :: labels.offsets⟩ := by
  have hmem : offset ∉ labels.labels := by
    rw [Std.HashMap.mem_iff_isSome_getElem?, hnew]
    simp
  have hid : (UInt32.ofNat labels.labels.size).toNat = labels.labels.size :=
    UInt32.toNat_ofNat_of_lt' (Nat.lt_of_le_of_lt hnumbered.size_le (by decide))
  have hsize : (labels.labels.insert offset ⟨UInt32.ofNat labels.labels.size⟩).size =
      labels.labels.size + 1 := by
    rw [Std.HashMap.size_insert, if_neg hmem]
  exact {
    nodup := List.nodup_cons.2 ⟨fun h => hmem ((hnumbered.mem_iff offset).1 h), hnumbered.nodup⟩
    mem_iff := by
      intro other
      rw [List.mem_cons, hnumbered.mem_iff, Std.HashMap.mem_insert, beq_iff_eq, eq_comm]
    size_eq := by rw [hsize, hnumbered.size_eq, List.length_cons]
    id_lt := by
      intro other label hlabel
      rw [Std.HashMap.getElem?_insert] at hlabel
      rw [hsize]
      split at hlabel
      · cases hlabel
        rw [hid]
        exact Nat.lt_succ_self _
      · exact Nat.lt_succ_of_lt (hnumbered.id_lt other label hlabel)
    injective := by
      intro first second label hfirst hsecond
      rw [Std.HashMap.getElem?_insert] at hfirst hsecond
      have hfresh : ∀ other : UInt16, labels.labels[other]? ≠
          some (Label.mk (UInt32.ofNat labels.labels.size)) := by
        intro other hother
        have hlt := hnumbered.id_lt other _ hother
        rw [hid] at hlt
        exact Nat.lt_irrefl _ hlt
      split at hfirst <;> split at hsecond
      · simp_all
      · cases hfirst
        exact absurd hsecond (hfresh second)
      · cases hsecond
        exact absurd hfirst (hfresh first)
      · exact hnumbered.injective first second label hfirst hsecond }

theorem IsNumbered.labelOf (hnumbered : labels.IsNumbered) (offset : UInt16) :
    (labels.labelOf offset).2.IsNumbered := by
  unfold OffsetLabels.labelOf
  split
  · exact hnumbered
  · rename_i hnew
    exact hnumbered.insert hnew

theorem IsNumbered.addAll (hnumbered : labels.IsNumbered) (offsets : List UInt16) :
    (labels.addAll offsets).IsNumbered := by
  induction offsets generalizing labels with
  | nil => exact hnumbered
  | cons offset offsets ih => exact ih (hnumbered.labelOf offset)

/-! ### Names -/

/-- The label of an offset, or one that no offset has if it has none. -/
def name (labels : OffsetLabels) (offset : UInt16) : Label :=
  labels.labels[offset]?.getD ⟨UInt32.ofNat (65536 + offset.toNat)⟩

theorem getElem?_eq_some_name {offset : UInt16} (hmem : offset ∈ labels.labels) :
    labels.labels[offset]? = some (labels.name offset) := by
  obtain ⟨label, hlabel⟩ := Option.isSome_iff_exists.1 (Std.HashMap.mem_iff_isSome_getElem?.1 hmem)
  rw [name, hlabel, Option.getD_some]

theorem getElem?_eq_none {offset : UInt16} (hmem : offset ∉ labels.labels) :
    labels.labels[offset]? = none :=
  Std.HashMap.getElem?_eq_none hmem

/-- **Different offsets have different names.** -/
theorem IsNumbered.name_injective (hnumbered : labels.IsNumbered) :
    Function.Injective labels.name := by
  have hunlabeled : ∀ offset : UInt16,
      (UInt32.ofNat (65536 + offset.toNat)).toNat = 65536 + offset.toNat := by
    intro offset
    have := offset.toNat_lt
    exact UInt32.toNat_ofNat_of_lt' (by simp only [UInt32.size]; omega)
  have hlabeled : ∀ (offset : UInt16) (label : Label), labels.labels[offset]? = some label →
      label.id.toNat < 65536 := fun offset label hlabel =>
    Nat.lt_of_lt_of_le (hnumbered.id_lt offset label hlabel) hnumbered.size_le
  intro first second hname
  unfold name at hname
  cases hfirst : labels.labels[first]? with
  | some label =>
    cases hsecond : labels.labels[second]? with
    | some other =>
      rw [hfirst, hsecond, Option.getD_some, Option.getD_some] at hname
      subst hname
      exact hnumbered.injective first second label hfirst hsecond
    | none =>
      rw [hfirst, hsecond, Option.getD_some, Option.getD_none] at hname
      have hlt := hlabeled first label hfirst
      rw [hname, hunlabeled second] at hlt
      omega
  | none =>
    cases hsecond : labels.labels[second]? with
    | some other =>
      rw [hfirst, hsecond, Option.getD_some, Option.getD_none] at hname
      have hlt := hlabeled second other hsecond
      rw [← hname, hunlabeled first] at hlt
      omega
    | none =>
      rw [hfirst, hsecond, Option.getD_none, Option.getD_none] at hname
      have hnat := congrArg (fun label : Label => label.id.toNat) hname
      simp only [hunlabeled] at hnat
      exact UInt16.toNat_inj.1 (by omega)

theorem addAll_cons (offset : UInt16) (offsets : List UInt16) :
    labels.addAll (offset :: offsets) = (labels.labelOf offset).2.addAll offsets :=
  rfl

theorem addAll_append (first second : List UInt16) :
    labels.addAll (first ++ second) = (labels.addAll first).addAll second :=
  List.foldl_append

theorem length_labelOf (offset : UInt16) : (labels.labelOf offset).2.length = labels.length := by
  unfold labelOf
  split <;> rfl

theorem length_addAll (offsets : List UInt16) : (labels.addAll offsets).length = labels.length := by
  induction offsets generalizing labels with
  | nil => rfl
  | cons offset offsets ih => rw [addAll_cons, ih, length_labelOf]

/-- Giving a label to an offset is what it does, and it does nothing else. -/
theorem getElem?_labelOf (offset other : UInt16) :
    (labels.labelOf offset).2.labels[other]? =
      if offset = other then some (labels.labelOf offset).1 else labels.labels[other]? := by
  unfold labelOf
  split
  · rename_i label hlabel
    split
    · rename_i heq
      rw [← heq, hlabel]
    · rfl
  · rw [Std.HashMap.getElem?_insert]
    simp only [beq_iff_eq]

theorem mem_labelOf (offset other : UInt16) :
    other ∈ (labels.labelOf offset).2.labels ↔ other = offset ∨ other ∈ labels.labels := by
  rw [Std.HashMap.mem_iff_isSome_getElem?, Std.HashMap.mem_iff_isSome_getElem?, getElem?_labelOf]
  split
  · rename_i heq
    simp [heq]
  · rename_i hne
    simp [Ne.symm hne]

theorem mem_addAll {offsets : List UInt16} {other : UInt16} :
    other ∈ (labels.addAll offsets).labels ↔ other ∈ offsets ∨ other ∈ labels.labels := by
  induction offsets generalizing labels with
  | nil => simp [addAll]
  | cons offset offsets ih =>
    rw [addAll_cons, ih, mem_labelOf, List.mem_cons]
    tauto

theorem getElem?_addAll {offsets : List UInt16} {other : UInt16} (hmem : other ∈ labels.labels) :
    (labels.addAll offsets).labels[other]? = labels.labels[other]? := by
  induction offsets generalizing labels with
  | nil => rfl
  | cons offset offsets ih =>
    rw [addAll_cons, ih ((mem_labelOf offset other).2 (.inr hmem)), getElem?_labelOf]
    split
    · rename_i heq
      subst heq
      rw [labelOf, getElem?_eq_some_name hmem]
    · rfl

theorem name_addAll {offsets : List UInt16} {other : UInt16} (hmem : other ∈ labels.labels) :
    (labels.addAll offsets).name other = labels.name other := by
  rw [name, getElem?_addAll hmem, name]

theorem labelOf_fst (offset : UInt16) :
    (labels.labelOf offset).1 = (labels.labelOf offset).2.name offset := by
  rw [name, getElem?_labelOf, if_pos rfl, Option.getD_some]

/-- The offsets with a label are those that were asked for. -/
theorem getElem?_addAll_empty (length : UInt16) (asked : List UInt16) (offset : UInt16) :
    ((empty length).addAll asked).labels[offset]? =
      (some (((empty length).addAll asked).name offset)).filter
        (· ∈ asked.map ((empty length).addAll asked).name) := by
  have hinjective := ((isNumbered_empty length).addAll asked).name_injective
  have hmem : ((empty length).addAll asked).name offset ∈
      asked.map ((empty length).addAll asked).name ↔ offset ∈ asked :=
    List.mem_map_of_injective hinjective
  have hasked : offset ∈ ((empty length).addAll asked).labels ↔ offset ∈ asked := by
    rw [mem_addAll]
    simp [empty]
  by_cases hoffset : offset ∈ asked
  · rw [getElem?_eq_some_name (hasked.2 hoffset), Option.filter_some, if_pos]
    exact decide_eq_true (hmem.2 hoffset)
  · rw [getElem?_eq_none (mt hasked.1 hoffset), Option.filter_some, if_neg]
    simpa using mt hmem.1 hoffset

end OffsetLabels

namespace Labeling

open OffsetLabels

variable {α β : Type} {length : UInt16}

/-- A computation goes well under a condition. It asks for the labels of some offsets, one after the
other, and what it returns depends on their names alone. -/
structure Asks (action : Labeling α) (length : UInt16) (condition : Prop) (asked : List UInt16)
    (value : (UInt16 → Label) → α) : Prop where
  run : ∀ labels : OffsetLabels, labels.length = length → ∀ result,
    action labels = .ok result ↔
      condition ∧ (value (labels.addAll asked).name, labels.addAll asked) = result
  congr : ∀ first second : UInt16 → Label,
    (∀ offset ∈ asked, first offset = second offset) → value first = value second

namespace Asks

theorem pure (value : α) : Asks (Pure.pure value) length True [] fun _ => value where
  run labels _ result := by
    rw [true_and]
    exact ⟨fun h => Except.ok.inj h, fun h => congrArg Except.ok h⟩
  congr _ _ _ := rfl

theorem bind {action : Labeling α} {next : α → Labeling β} {first second : Prop}
    {asked others : List UInt16} {value : (UInt16 → Label) → α}
    (result : α → (UInt16 → Label) → β) (haction : Asks action length first asked value)
    (hnext : ∀ name, Asks (next (value name)) length second others (result (value name))) :
    Asks (action >>= next) length (first ∧ second) (asked ++ others)
      fun name => result (value name) name where
  run labels hlength found := by
    have hkept : value (labels.addAll (asked ++ others)).name =
        value (labels.addAll asked).name := by
      refine haction.congr _ _ fun offset hoffset => ?_
      rw [addAll_append]
      exact name_addAll (mem_addAll.2 (.inl hoffset))
    have hrest := (hnext (labels.addAll asked).name).run (labels.addAll asked)
      ((length_addAll asked).trans hlength) found
    rw [← addAll_append, ← hkept] at hrest
    rw [and_assoc, ← hrest]
    constructor
    · intro hrun
      obtain ⟨⟨middle, between⟩, hfirst, hsecond⟩ := Result.exists_of_bind hrun
      obtain ⟨hcondition, hmiddle⟩ := (haction.run labels hlength _).1 hfirst
      cases hmiddle
      rw [hkept]
      exact ⟨hcondition, hsecond⟩
    · rintro ⟨hcondition, hsecond⟩
      have hfirst := (haction.run labels hlength _).2 ⟨hcondition, rfl⟩
      rw [hkept] at hsecond
      change (action labels >>= fun (middle, between) => next middle between) = _
      rw [hfirst]
      exact hsecond
  congr left right hnames := by
    have hfirst : value left = value right :=
      haction.congr _ _ fun offset hoffset => hnames offset (List.mem_append_left _ hoffset)
    rw [hfirst]
    exact (hnext right).congr _ _ fun offset hoffset =>
      hnames offset (List.mem_append_right _ hoffset)

theorem throw {error : Error} {condition : Prop} {asked : List UInt16}
    {value : (UInt16 → Label) → α} (hcondition : ¬condition)
    (hcongr : ∀ first second : UInt16 → Label,
      (∀ offset ∈ asked, first offset = second offset) → value first = value second) :
    Asks (MonadExcept.throw error) length condition asked value where
  run labels _ result := by
    constructor
    · intro hrun
      cases hrun
    · intro hresult
      exact absurd hresult.1 hcondition
  congr := hcongr

theorem labelAt (offset : UInt16) :
    Asks (Labeling.labelAt offset) length (offset < length) [offset] fun name => name offset where
  run labels hlength result := by
    subst hlength
    unfold Labeling.labelAt
    have hfound : labels.labelOf offset =
        ((labels.addAll [offset]).name offset, labels.addAll [offset]) :=
      Prod.ext (labelOf_fst offset) rfl
    rw [← hfound]
    split <;> rename_i hlt <;> simp [hlt]
  congr _ _ hnames := hnames offset (List.mem_singleton_self offset)

theorem endLabelAt (offset : Nat) :
    Asks (Labeling.endLabelAt offset) length (offset ≤ length.toNat) [UInt16.ofNat offset]
      fun name => name (UInt16.ofNat offset) where
  run labels hlength result := by
    subst hlength
    unfold Labeling.endLabelAt
    have hfound : labels.labelOf (UInt16.ofNat offset) =
        ((labels.addAll [UInt16.ofNat offset]).name (UInt16.ofNat offset),
          labels.addAll [UInt16.ofNat offset]) :=
      Prod.ext (labelOf_fst _) rfl
    rw [← hfound]
    split <;> rename_i hle <;> simp [hle]
  congr _ _ hnames := hnames _ (List.mem_singleton_self _)

theorem during {action : Labeling α} {condition : Prop} {asked : List UInt16}
    {value : (UInt16 → Label) → α} (activity : Activity)
    (hasks : Asks action length condition asked value) :
    Asks (Labeling.during activity action) length condition asked value where
  run labels hlength result := by
    rw [← hasks.run labels hlength result]
    exact Result.during_eq_ok_iff
  congr := hasks.congr

theorem of_iff {action : Labeling α} {condition other : Prop} {asked offsets : List UInt16}
    {value : (UInt16 → Label) → α} (hasks : Asks action length condition asked value)
    (hcondition : condition ↔ other) (hasked : asked = offsets) :
    Asks action length other offsets value := by
  subst hasked
  exact ⟨fun labels hlength result => by rw [hasks.run labels hlength, hcondition], hasks.congr⟩

theorem of_eq {action : Labeling α} {condition : Prop} {asked : List UInt16}
    {value other : (UInt16 → Label) → α} (hasks : Asks action length condition asked value)
    (hvalue : ∀ name, value name = other name) : Asks action length condition asked other :=
  funext hvalue ▸ hasks

theorem returning {action : Labeling α} {condition : Prop} {asked : List UInt16}
    {value : (UInt16 → Label) → α} (f : α → β) (hasks : Asks action length condition asked value) :
    Asks (action >>= fun found => Pure.pure (f found)) length condition asked
      fun name => f (value name) :=
  (bind (fun found _ => f found) hasks fun name => pure (f (value name))).of_iff
    (and_iff_left trivial) (List.append_nil _)

theorem map {action : Labeling α} {condition : Prop} {asked : List UInt16}
    {value : (UInt16 → Label) → α} (f : α → β) (hasks : Asks action length condition asked value) :
    Asks (f <$> action) length condition asked fun name => f (value name) := by
  rw [map_eq_pure_bind]
  exact hasks.returning f

theorem mapM {action : α → Labeling β} {condition : α → Prop} {asked : α → List UInt16}
    {value : α → (UInt16 → Label) → β} {values : List α}
    (hasks : ∀ found ∈ values,
      Asks (action found) length (condition found) (asked found) (value found)) :
    Asks (values.mapM action) length (∀ found ∈ values, condition found) (values.flatMap asked)
      fun name => values.map fun found => value found name := by
  induction values with
  | nil => exact (pure []).of_iff (by simp) rfl
  | cons first values ih =>
    obtain ⟨hfirst, hvalues⟩ := List.forall_mem_cons.1 hasks
    rw [List.mapM_cons]
    refine Asks.of_iff (bind (fun found name => found :: values.map fun other => value other name)
      hfirst fun name => (ih hvalues).returning (value first name :: ·)) ?_ rfl
    rw [List.forall_mem_cons]

theorem lastLabelAt (offset : UInt16) :
    Asks (Labeling.endLabelAt offset.toNat) length (offset ≤ length) [offset]
      fun name => name offset := by
  have hasks : Asks (Labeling.endLabelAt offset.toNat) length _ _ _ := endLabelAt offset.toNat
  rw [UInt16.ofNat_toNat] at hasks
  exact hasks.of_iff UInt16.le_iff_toNat_le.symm rfl

theorem rangeAt {start stop : UInt16} (hle : start ≤ stop) :
    Asks (Labeling.rangeAt start (stop - start)) length (start < length ∧ stop ≤ length)
      [start, stop] fun name => ⟨name start, name stop⟩ := by
  have hstop : start.toNat + (stop - start).toNat = stop.toNat := by
    have hle := UInt16.le_iff_toNat_le.1 hle
    rw [UInt16.toNat_sub_of_le _ _ (UInt16.le_iff_toNat_le.2 hle)]
    omega
  unfold Labeling.rangeAt
  rw [hstop]
  exact bind (fun found name => LabelRange.mk found (name stop)) (labelAt start)
    fun name => (lastLabelAt stop).returning (LabelRange.mk (name start))

theorem handler (entry : ExceptionEntry) :
    Asks (Labeling.handler entry) length
      (entry.startOffset < length ∧ entry.endOffset ≤ length ∧ entry.handlerOffset < length)
      [entry.startOffset, entry.endOffset, entry.handlerOffset]
      fun name => ⟨name entry.startOffset, name entry.endOffset, name entry.handlerOffset,
        entry.catchType⟩ := by
  refine bind (fun start name => ExceptionHandler.mk start (name entry.endOffset)
    (name entry.handlerOffset) entry.catchType) (labelAt entry.startOffset) fun first => ?_
  refine bind (fun stop name => ExceptionHandler.mk (first entry.startOffset) stop
    (name entry.handlerOffset) entry.catchType) (lastLabelAt entry.endOffset) fun second => ?_
  exact (labelAt entry.handlerOffset).returning fun found =>
    ExceptionHandler.mk (first entry.startOffset) (second entry.endOffset) found entry.catchType

theorem lineNumber (row : LineNumber) :
    Asks (Labeling.lineNumber row) length (row.startOffset < length) [row.startOffset]
      fun name => (name row.startOffset, row.line) :=
  (labelAt row.startOffset).returning _

theorem type (type : VerificationType UInt16) :
    Asks (type.mapM Labeling.labelAt) length (∀ origin ∈ type.origins, origin < length)
      type.origins fun name => type.map name := by
  cases type with
  | uninitialized origin =>
    refine ((labelAt origin).map VerificationType.uninitialized).of_iff ?_ rfl
    simp [VerificationType.origins]
  | _ => exact (pure _).of_iff (by simp [VerificationType.origins]) rfl

theorem types (types : List (VerificationType UInt16)) :
    Asks (types.mapM (VerificationType.mapM Labeling.labelAt)) length
      (∀ origin ∈ types.flatMap VerificationType.origins, origin < length)
      (types.flatMap VerificationType.origins) fun name => types.map (VerificationType.map name) := by
  refine (mapM fun found _ => type found).of_iff ?_ rfl
  simp only [List.mem_flatMap]
  constructor
  · rintro hall origin ⟨found, hfound, horigin⟩
    exact hall found hfound origin horigin
  · exact fun hall found hfound origin horigin => hall origin ⟨found, hfound, horigin⟩

theorem frame (frame : Frame UInt16) :
    Asks (frame.mapM Labeling.labelAt) length (∀ origin ∈ frame.origins, origin < length)
      frame.origins fun name => frame.map name := by
  cases frame with
  | same => exact (pure _).of_iff (by simp [Frame.origins]) rfl
  | chop removed => exact (pure _).of_iff (by simp [Frame.origins]) rfl
  | sameWithStack stack => exact (type stack).map Frame.sameWithStack
  | append added =>
    simp only [Frame.map_append]
    exact (types added).map Frame.append
  | full locals stack =>
    simp only [Frame.map_full]
    refine Asks.of_iff (bind (fun found name =>
      Frame.full found (stack.map (VerificationType.map name))) (types locals)
      fun name => (types stack).returning (Frame.full _)) ?_ rfl
    simp only [Frame.origins, List.mem_append, or_imp, forall_and]

end Asks

end Labeling

end JvmClass
