import JvmClass.Instruction.Descriptor
import Mathlib.Algebra.BigOperators.Group.List.Basic
import Mathlib.Algebra.Ring.Nat
import Mathlib.Data.List.Basic

/-!
# The parameters of a descriptor

The grammar behind the slots of a descriptor. A parameter is any number of brackets and an element:
a letter, or the name of a class between `L` and a semicolon. A name can hold every unit but the
semicolon, parentheses, brackets and letters included. All the marks are below 128, so it makes no
difference whether a name is seen as units or as bytes. One parameter never is the start of another,
so a descriptor lists one sequence of parameters only, and counting slots comes to the sum over
these.
-/

namespace JvmClass.Descriptor

/-! ### Parameters -/

inductive BaseType where
  | byte
  | char
  | double
  | float
  | int
  | long
  | short
  | boolean

namespace BaseType

def letter : BaseType → UInt16
  | byte => 0x42
  | char => 0x43
  | double => 0x44
  | float => 0x46
  | int => 0x49
  | long => 0x4A
  | short => 0x53
  | boolean => 0x5A

def isDouble : BaseType → Bool
  | double | long => true
  | _ => false

theorem letter_injective : Function.Injective letter := by
  intro first second hletter
  cases first <;> cases second <;> simp [letter] at hletter ⊢

end BaseType

inductive ElementType where
  | base (type : BaseType)
  /-- An object of the class with the given name, which ends before the first semicolon. -/
  | object (name : List UInt16) (hname : 0x3B ∉ name)

namespace ElementType

def units : ElementType → List UInt16
  | base type => [type.letter]
  | object name _ => 0x4C :: (name ++ [0x3B])

def slots : ElementType → Nat
  | base type => if type.isDouble then 2 else 1
  | object .. => 1

end ElementType

/-- The type of a parameter, an array if it has dimensions. -/
structure Parameter where
  dimensions : Nat
  element : ElementType

namespace Parameter

def units (parameter : Parameter) : List UInt16 :=
  List.replicate parameter.dimensions 0x5B ++ parameter.element.units

/-- An array takes one slot, whatever its elements are. -/
def slots (parameter : Parameter) : Nat :=
  if parameter.dimensions = 0 then parameter.element.slots else 1

end Parameter

/-- The descriptor starts with these parameters in parentheses. -/
def Lists (descriptor : Text) (parameters : List Parameter) : Prop :=
  ∃ rest, descriptor.units = 0x28 :: (parameters.flatMap Parameter.units ++ 0x29 :: rest)

def slotsOf (parameters : List Parameter) : Nat :=
  1 + (parameters.map Parameter.slots).sum

/-! ### Counting what is listed -/

section

variable {place : Place} {slots : Nat} {rest : List UInt16}

theorem countSlots_bracket (hplace : place ≠ .name) :
    countSlots place slots (0x5B :: rest) = countSlots .element slots rest := by
  cases place with
  | name => exact absurd rfl hplace
  | _ => rfl

theorem countSlots_name {name : List UInt16} (hname : 0x3B ∉ name) :
    countSlots .name slots (name ++ 0x3B :: rest) = countSlots .parameter slots rest := by
  induction name with
  | nil => rfl
  | cons unit name ih =>
    obtain ⟨hunit, hname⟩ := not_or.1 (mt List.mem_cons.2 hname)
    have hne : (unit == 0x3B) = false := beq_false_of_ne (Ne.symm hunit)
    rw [List.cons_append, countSlots, hne]
    exact ih hname

theorem countSlots_element (hplace : place ≠ .name) (element : ElementType) :
    countSlots place slots (element.units ++ rest) =
      countSlots .parameter (slots + if place = .parameter then element.slots else 1) rest := by
  cases element with
  | base type =>
    cases place with
    | name => exact absurd rfl hplace
    | _ => cases type <;> rfl
  | object name hname =>
    have hunits : (ElementType.object name hname).units ++ rest =
        0x4C :: (name ++ 0x3B :: rest) := by
      simp [ElementType.units]
    have hletter : countSlots place slots (0x4C :: (name ++ 0x3B :: rest)) =
        countSlots .name (slots + 1) (name ++ 0x3B :: rest) := by
      cases place with
      | name => exact absurd rfl hplace
      | _ => rfl
    rw [hunits, hletter, countSlots_name hname]
    split <;> rfl

theorem countSlots_dimensions (dimensions : Nat) (element : ElementType) :
    countSlots .element slots (List.replicate dimensions 0x5B ++ (element.units ++ rest)) =
      countSlots .parameter (slots + 1) rest := by
  induction dimensions with
  | zero => exact countSlots_element (by decide) element
  | succ dimensions ih =>
    rw [List.replicate_succ, List.cons_append, countSlots_bracket (by decide), ih]

/-- **One parameter.** -/
theorem countSlots_parameter (parameter : Parameter) :
    countSlots .parameter slots (parameter.units ++ rest) =
      countSlots .parameter (slots + parameter.slots) rest := by
  obtain ⟨dimensions, element⟩ := parameter
  rw [Parameter.units, List.append_assoc]
  cases dimensions with
  | zero => exact countSlots_element (by decide) element
  | succ dimensions =>
    rw [List.replicate_succ, List.cons_append, countSlots_bracket (by decide),
      countSlots_dimensions]
    rfl

/-- **All parameters.** -/
theorem countSlots_parameters (parameters : List Parameter) :
    countSlots .parameter slots (parameters.flatMap Parameter.units ++ 0x29 :: rest) =
      some (slots + (parameters.map Parameter.slots).sum) := by
  induction parameters generalizing slots with
  | nil => rfl
  | cons parameter parameters ih =>
    rw [List.flatMap_cons, List.append_assoc, countSlots_parameter, ih, List.map_cons,
      List.sum_cons, Nat.add_assoc]

end

/-! ### What was counted -/

/-- The units start with parameters up to a closing parenthesis, which take so many slots. -/
def Closes (slots : Nat) (units : List UInt16) : Prop :=
  ∃ (parameters : List Parameter) (rest : List UInt16),
    units = parameters.flatMap Parameter.units ++ 0x29 :: rest ∧
      slots = (parameters.map Parameter.slots).sum

/-- The same from any place on; a name has its slot already. -/
def Continues : Place → Nat → List UInt16 → Prop
  | .parameter, slots, units => Closes slots units
  | .element, slots, units => ∃ (dimensions : Nat) (element : ElementType) (others : List UInt16)
    (more : Nat), units = List.replicate dimensions 0x5B ++ (element.units ++ others) ∧
      slots = 1 + more ∧ Closes more others
  | .name, slots, units => ∃ name others : List UInt16, 0x3B ∉ name ∧
    units = name ++ 0x3B :: others ∧ Closes slots others

namespace Continues

variable {place : Place} {slots : Nat} {units : List UInt16}

theorem close (rest : List UInt16) : Continues .parameter 0 (0x29 :: rest) :=
  ⟨[], rest, rfl, rfl⟩

theorem parameter (parameter : Parameter) (hrest : Closes slots units) :
    Continues .parameter (parameter.slots + slots) (parameter.units ++ units) := by
  obtain ⟨parameters, rest, rfl, rfl⟩ := hrest
  exact ⟨parameter :: parameters, rest, by simp, by simp⟩

theorem element (hplace : place ≠ .name) (element : ElementType) (hrest : Closes slots units) :
    Continues place ((if place = .parameter then element.slots else 1) + slots)
      (element.units ++ units) := by
  cases place with
  | name => exact absurd rfl hplace
  | parameter => exact parameter ⟨0, element⟩ hrest
  | element => exact ⟨0, element, units, slots, rfl, rfl, hrest⟩

theorem bracket (hplace : place ≠ .name) (hrest : Continues .element slots units) :
    Continues place slots (0x5B :: units) := by
  obtain ⟨dimensions, element, others, more, rfl, rfl, hothers⟩ := hrest
  cases place with
  | name => exact absurd rfl hplace
  | parameter =>
    rw [← List.cons_append, ← List.replicate_succ, ← List.append_assoc]
    exact parameter ⟨dimensions + 1, element⟩ hothers
  | element => exact ⟨dimensions + 1, element, others, more, rfl, rfl, hothers⟩

theorem object (hplace : place ≠ .name) (hrest : Continues .name slots units) :
    Continues place (1 + slots) (0x4C :: units) := by
  obtain ⟨name, others, hname, rfl, hothers⟩ := hrest
  have hobject := element hplace (.object name hname) hothers
  simpa [ElementType.units, ElementType.slots] using hobject

theorem name {unit : UInt16}
    (hrest : Continues (if unit == 0x3B then .parameter else .name) slots units) :
    Continues .name slots (unit :: units) := by
  by_cases hunit : unit = 0x3B
  · rw [hunit] at hrest ⊢
    exact ⟨[], units, List.not_mem_nil, rfl, hrest⟩
  · rw [if_neg (by simpa using hunit)] at hrest
    obtain ⟨name, others, hname, rfl, hothers⟩ := hrest
    refine ⟨unit :: name, others, ?_, rfl, hothers⟩
    rw [List.mem_cons, not_or]
    exact ⟨Ne.symm hunit, hname⟩

end Continues

theorem exists_continues_letter {place : Place} {slots total taken : Nat} {units : List UInt16}
    (hplace : place ≠ .name) (type : BaseType)
    (htaken : taken = if place = .parameter then (ElementType.base type).slots else 1)
    (hrest : ∃ more, total = slots + taken + more ∧ Continues .parameter more units) :
    ∃ more, total = slots + more ∧ Continues place more (type.letter :: units) := by
  obtain ⟨more, rfl, hmore⟩ := hrest
  exact ⟨taken + more, Nat.add_assoc .., htaken ▸ .element hplace (.base type) hmore⟩

/-- Whatever is counted is parameters up to a closing parenthesis. -/
theorem exists_continues_of_countSlots {place : Place} {slots total : Nat} {units : List UInt16}
    (hcount : countSlots place slots units = some total) :
    ∃ more, total = slots + more ∧ Continues place more units := by
  fun_induction countSlots place slots units with
  | case1 => cases hcount
  | case2 slots unit units ih =>
    obtain ⟨more, rfl, hmore⟩ := ih hcount
    exact ⟨more, rfl, .name hmore⟩
  | case3 place slots units hplace ih =>
    obtain ⟨more, rfl, hmore⟩ := ih hcount
    exact ⟨more, rfl, .bracket hplace hmore⟩
  | case4 slots units =>
    cases hcount
    exact ⟨0, rfl, .close units⟩
  | case5 => cases hcount
  | case6 place slots units hplace ih =>
    exact exists_continues_letter hplace .long rfl (ih hcount)
  | case7 place slots units hplace ih =>
    exact exists_continues_letter hplace .double rfl (ih hcount)
  | case8 place slots units hplace ih =>
    exact exists_continues_letter hplace .byte (ite_self 1).symm (ih hcount)
  | case9 place slots units hplace ih =>
    exact exists_continues_letter hplace .char (ite_self 1).symm (ih hcount)
  | case10 place slots units hplace ih =>
    exact exists_continues_letter hplace .float (ite_self 1).symm (ih hcount)
  | case11 place slots units hplace ih =>
    exact exists_continues_letter hplace .int (ite_self 1).symm (ih hcount)
  | case12 place slots units hplace ih =>
    exact exists_continues_letter hplace .short (ite_self 1).symm (ih hcount)
  | case13 place slots units hplace ih =>
    exact exists_continues_letter hplace .boolean (ite_self 1).symm (ih hcount)
  | case14 place slots units hplace ih =>
    obtain ⟨more, rfl, hmore⟩ := ih hcount
    exact ⟨1 + more, Nat.add_assoc .., .object hplace hmore⟩
  | case15 => cases hcount

/-! ### One list only -/

/-- A name goes up to the first semicolon. -/
theorem name_inj {name other left right : List UInt16} (hname : 0x3B ∉ name)
    (hother : 0x3B ∉ other) (heq : name ++ 0x3B :: left = other ++ 0x3B :: right) :
    name = other ∧ left = right := by
  induction name generalizing other with
  | nil =>
    cases other with
    | nil => exact ⟨rfl, (List.cons.inj heq).2⟩
    | cons unit other =>
      rw [← (List.cons.inj heq).1] at hother
      exact absurd List.mem_cons_self hother
  | cons unit name ih =>
    cases other with
    | nil =>
      rw [(List.cons.inj heq).1] at hname
      exact absurd List.mem_cons_self hname
    | cons first other =>
      obtain ⟨rfl, hrest⟩ := List.cons.inj heq
      obtain ⟨rfl, rfl⟩ := ih (mt (List.mem_cons_of_mem _) hname)
        (mt (List.mem_cons_of_mem _) hother) hrest
      exact ⟨rfl, rfl⟩

theorem ElementType.append_inj {first second : ElementType} {left right : List UInt16}
    (heq : first.units ++ left = second.units ++ right) : first = second ∧ left = right := by
  cases first with
  | base type =>
    cases second with
    | base other =>
      obtain ⟨hletter, hrest⟩ := List.cons.inj heq
      rw [BaseType.letter_injective hletter]
      exact ⟨rfl, hrest⟩
    | object name _ => cases type <;> exact absurd (List.cons.inj heq).1 (by decide)
  | object name hname =>
    cases second with
    | base other => cases other <;> exact absurd (List.cons.inj heq).1 (by decide)
    | object other hother =>
      have hrest : name ++ [0x3B] ++ left = other ++ [0x3B] ++ right := (List.cons.inj heq).2
      rw [List.append_assoc, List.append_assoc] at hrest
      obtain ⟨rfl, rfl⟩ := name_inj hname hother hrest
      exact ⟨rfl, rfl⟩

theorem ElementType.exists_units_eq (element : ElementType) :
    ∃ unit rest, element.units = unit :: rest ∧ unit ≠ 0x5B ∧ unit ≠ 0x29 := by
  cases element with
  | base type => exact ⟨type.letter, [], rfl, by cases type <;> decide, by cases type <;> decide⟩
  | object name _ => exact ⟨0x4C, name ++ [0x3B], rfl, by decide, by decide⟩

/-- Where two parameters start the same units, they are the same. -/
theorem Parameter.append_inj {first second : Parameter} {left right : List UInt16}
    (heq : first.units ++ left = second.units ++ right) : first = second ∧ left = right := by
  obtain ⟨dimensions, element⟩ := first
  obtain ⟨others, other⟩ := second
  simp only [Parameter.units, List.append_assoc] at heq
  induction dimensions generalizing others with
  | zero =>
    cases others with
    | zero =>
      obtain ⟨rfl, rfl⟩ := ElementType.append_inj heq
      exact ⟨rfl, rfl⟩
    | succ others =>
      obtain ⟨unit, rest, hunits, hbracket, -⟩ := element.exists_units_eq
      rw [hunits] at heq
      exact absurd (List.cons.inj heq).1 hbracket
  | succ dimensions ih =>
    cases others with
    | zero =>
      obtain ⟨unit, rest, hunits, hbracket, -⟩ := other.exists_units_eq
      rw [hunits] at heq
      exact absurd (List.cons.inj heq).1.symm hbracket
    | succ others =>
      obtain ⟨hsame, rfl⟩ := ih others (List.cons.inj heq).2
      cases hsame
      exact ⟨rfl, rfl⟩

theorem Parameter.units_append_ne (parameter : Parameter) (left right : List UInt16) :
    parameter.units ++ left ≠ 0x29 :: right := by
  obtain ⟨dimensions, element⟩ := parameter
  intro heq
  cases dimensions with
  | zero =>
    obtain ⟨unit, rest, hunits, -, hclose⟩ := element.exists_units_eq
    rw [Parameter.units, hunits] at heq
    exact hclose (List.cons.inj heq).1
  | succ dimensions => exact absurd (List.cons.inj heq).1 (by decide)

theorem parameters_inj {parameters others : List Parameter} {left right : List UInt16}
    (heq : parameters.flatMap Parameter.units ++ 0x29 :: left =
      others.flatMap Parameter.units ++ 0x29 :: right) : parameters = others := by
  induction parameters generalizing others with
  | nil =>
    cases others with
    | nil => rfl
    | cons other others =>
      rw [List.flatMap_cons, List.append_assoc] at heq
      exact absurd heq.symm (other.units_append_ne _ _)
  | cons parameter parameters ih =>
    cases others with
    | nil =>
      rw [List.flatMap_cons, List.append_assoc] at heq
      exact absurd heq (parameter.units_append_ne _ _)
    | cons other others =>
      rw [List.flatMap_cons, List.flatMap_cons, List.append_assoc, List.append_assoc] at heq
      obtain ⟨rfl, hrest⟩ := Parameter.append_inj heq
      rw [ih hrest]

theorem Lists.eq {descriptor : Text} {parameters others : List Parameter}
    (hlists : Lists descriptor parameters) (hothers : Lists descriptor others) :
    others = parameters := by
  obtain ⟨rest, hunits⟩ := hlists
  obtain ⟨left, hleft⟩ := hothers
  exact parameters_inj (List.cons.inj (hleft.symm.trans hunits)).2

/-! ### Slots of a descriptor -/

theorem Lists.slots?_eq {descriptor : Text} {parameters : List Parameter}
    (hlists : Lists descriptor parameters) : slots? descriptor = some (slotsOf parameters) := by
  obtain ⟨rest, hunits⟩ := hlists
  rw [slots?, hunits]
  exact countSlots_parameters parameters

theorem exists_lists_of_slots? {descriptor : Text} {total : Nat}
    (hslots : slots? descriptor = some total) : ∃ parameters, Lists descriptor parameters := by
  unfold slots? at hslots
  split at hslots
  · rename_i units hunits
    obtain ⟨_, -, parameters, rest, rfl, -⟩ := exists_continues_of_countSlots hslots
    exact ⟨parameters, rest, hunits⟩
  · cases hslots

/-- Why there are no slots for a call. -/
theorem cases_of_argumentSlots {descriptor : Text} {error : Error}
    (herror : argumentSlots descriptor = .error error) :
    (∀ parameters, ¬Lists descriptor parameters) ∧
      error = .ofFault (.malformedDescriptor descriptor) ∨
    ∃ parameters, Lists descriptor parameters ∧ 255 < slotsOf parameters ∧
      error = .ofFault (.tooManyArgumentSlots descriptor (slotsOf parameters)) := by
  unfold argumentSlots at herror
  split at herror
  · rename_i hnone
    refine .inl ⟨fun parameters hlists => ?_, (Except.error.inj herror).symm⟩
    rw [hlists.slots?_eq] at hnone
    cases hnone
  · rename_i slots hsome
    obtain ⟨parameters, hlists⟩ := exists_lists_of_slots? hsome
    cases hsome.symm.trans hlists.slots?_eq
    split at herror
    · cases herror
    · rename_i hmany
      exact .inr ⟨parameters, hlists, by omega, (Except.error.inj herror).symm⟩

/-- The slots of a call are exact. A descriptor lists one sequence of parameters at most. If it lists
one, the result is one slot for the receiver and those of the parameters, or that there are too many
of them; else the descriptor is malformed. -/
theorem argumentSlots_exact (descriptor : Text) :
    (∀ parameters, Lists descriptor parameters →
      (∀ others, Lists descriptor others → others = parameters) ∧
      (slotsOf parameters ≤ 255 → ∃ slots, argumentSlots descriptor = .ok slots ∧
        slots.toNat = slotsOf parameters) ∧
      (255 < slotsOf parameters → ∃ error, argumentSlots descriptor = .error error ∧
        error.kind = .capacity)) ∧
    ((∀ parameters, ¬Lists descriptor parameters) →
      ∃ error, argumentSlots descriptor = .error error ∧ error.kind = .format) := by
  constructor
  · intro parameters hlists
    have hslots := hlists.slots?_eq
    refine ⟨fun others hothers => hlists.eq hothers, fun hle => ?_, fun hlt => ?_⟩
    · refine ⟨UInt8.ofNat (slotsOf parameters), ?_, UInt8.toNat_ofNat_of_lt' (Nat.lt_succ_of_le hle)⟩
      simp only [argumentSlots, hslots]
      exact if_pos (Nat.lt_succ_of_le hle)
    · refine ⟨.ofFault (.tooManyArgumentSlots descriptor (slotsOf parameters)), ?_, rfl⟩
      simp only [argumentSlots, hslots]
      exact if_neg (Nat.not_lt.2 hlt)
  · intro hnone
    cases hslots : slots? descriptor with
    | none =>
      refine ⟨.ofFault (.malformedDescriptor descriptor), ?_, rfl⟩
      simp only [argumentSlots, hslots]
    | some total =>
      obtain ⟨parameters, hlists⟩ := exists_lists_of_slots? hslots
      exact absurd hlists (hnone parameters)

theorem semicolon_notMem_marks : (0x3B : UInt16) ∉ [0x29, 0x5B, 0x4A, 0x28] := by
  decide

/-- A long, an array of arrays of doubles, and an object whose class has the marks of other
parameters in its name. -/
def markedParameters : List Parameter :=
  [⟨0, .base .long⟩, ⟨2, .base .double⟩, ⟨0, .object _ semicolon_notMem_marks⟩]

def manyLongs : Text :=
  ⟨0x28 :: ((List.replicate 128 ⟨0, .base .long⟩).flatMap Parameter.units ++ [0x29])⟩

/-- The marked parameters take five slots; 128 longs are too many; a bracket without an element is
malformed. -/
theorem argumentSlots_exact_markedParameters :
    Lists (.ofString "(J[[DL)[J(;)V") markedParameters ∧
      (∃ slots, argumentSlots (.ofString "(J[[DL)[J(;)V") = .ok slots ∧ slots.toNat = 5) ∧
      (∃ error, argumentSlots manyLongs = .error error ∧ error.kind = .capacity) ∧
      ∃ error, argumentSlots (.ofString "([)V") = .error error ∧ error.kind = .format := by
  have hmarked : Lists (.ofString "(J[[DL)[J(;)V") markedParameters := ⟨[0x56], by decide⟩
  have hlongs : Lists manyLongs (List.replicate 128 ⟨0, .base .long⟩) := ⟨[], rfl⟩
  refine ⟨hmarked, ?_, ?_, ?_⟩
  · exact ((argumentSlots_exact _).1 _ hmarked).2.1 (by decide)
  · apply ((argumentSlots_exact _).1 _ hlongs).2.2
    simp [slotsOf, Parameter.slots, ElementType.slots, BaseType.isDouble]
  · apply (argumentSlots_exact _).2
    intro parameters hlists
    cases hlists.slots?_eq

end JvmClass.Descriptor
