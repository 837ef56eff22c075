import JvmClass.Constant
import JvmClass.Fault.Message

/-!
# Annotations

An annotation put on something, with the values given to its elements. Values nest: an element can
hold an array of values or another annotation.
-/

namespace JvmClass

inductive ElementConstant where
  | byte (value : Int8)
  | char (value : UInt16)
  | double (bits : UInt64)
  | float (bits : UInt32)
  | integer (value : Int32)
  | long (value : Int64)
  | short (value : Int16)
  | boolean (value : Bool)
  | string (text : Text)
deriving DecidableEq

mutual

inductive ElementValue where
  | constant (value : ElementConstant)
  | enumConstant (typeName constantName : Text)
  | classInfo (descriptor : Text)
  | nested (use : AnnotationUse)
  | array (values : List ElementValue)

/-- An annotation of the type with the given descriptor. -/
structure AnnotationUse where
  descriptor : Text
  elements : List Element

structure Element where
  name : Text
  value : ElementValue

end

/-! ### Equality -/

mutual

def ElementValue.decEq : (left right : ElementValue) → Decidable (left = right)
  | .constant a, .constant b => decidable_of_iff (a = b) (by simp)
  | .enumConstant a b, .enumConstant c d => decidable_of_iff (a = c ∧ b = d) (by simp)
  | .classInfo a, .classInfo b => decidable_of_iff (a = b) (by simp)
  | .nested a, .nested b =>
    have := AnnotationUse.decEq a b
    decidable_of_iff (a = b) (by simp)
  | .array a, .array b =>
    have := ElementValue.decEqList a b
    decidable_of_iff (a = b) (by simp)
  | .constant _, .enumConstant .. | .constant _, .classInfo _ => isFalse nofun
  | .constant _, .nested _ | .constant _, .array _ => isFalse nofun
  | .enumConstant .., .constant _ | .enumConstant .., .classInfo _ => isFalse nofun
  | .enumConstant .., .nested _ | .enumConstant .., .array _ => isFalse nofun
  | .classInfo _, .constant _ | .classInfo _, .enumConstant .. => isFalse nofun
  | .classInfo _, .nested _ | .classInfo _, .array _ => isFalse nofun
  | .nested _, .constant _ | .nested _, .enumConstant .. => isFalse nofun
  | .nested _, .classInfo _ | .nested _, .array _ => isFalse nofun
  | .array _, .constant _ | .array _, .enumConstant .. => isFalse nofun
  | .array _, .classInfo _ | .array _, .nested _ => isFalse nofun

def AnnotationUse.decEq : (left right : AnnotationUse) → Decidable (left = right)
  | ⟨a, elements⟩, ⟨b, others⟩ =>
    have := Element.decEqList elements others
    decidable_of_iff (a = b ∧ elements = others) (by simp)

def Element.decEq : (left right : Element) → Decidable (left = right)
  | ⟨a, value⟩, ⟨b, other⟩ =>
    have := ElementValue.decEq value other
    decidable_of_iff (a = b ∧ value = other) (by simp)

def ElementValue.decEqList : (left right : List ElementValue) → Decidable (left = right)
  | [], [] => isTrue rfl
  | [], _ :: _ => isFalse nofun
  | _ :: _, [] => isFalse nofun
  | a :: as, b :: bs =>
    match ElementValue.decEq a b with
    | isFalse h => isFalse (by simp [h])
    | isTrue _ =>
      have := ElementValue.decEqList as bs
      decidable_of_iff (as = bs) (by simp [*])

def Element.decEqList : (left right : List Element) → Decidable (left = right)
  | [], [] => isTrue rfl
  | [], _ :: _ => isFalse nofun
  | _ :: _, [] => isFalse nofun
  | a :: as, b :: bs =>
    match Element.decEq a b with
    | isFalse h => isFalse (by simp [h])
    | isTrue _ =>
      have := Element.decEqList as bs
      decidable_of_iff (as = bs) (by simp [*])

end

instance : DecidableEq ElementValue := ElementValue.decEq

instance : DecidableEq AnnotationUse := AnnotationUse.decEq

instance : DecidableEq Element := Element.decEq

/-! ### Printing -/

def ElementConstant.shown : ElementConstant → String
  | byte value => s!"Byte({value.toInt})"
  | char value => s!"Char({value.toNat})"
  | double bits => s!"Double({showHex bits.toNat})"
  | float bits => s!"Float({showHex bits.toNat})"
  | integer value => s!"Integer({value.toInt})"
  | long value => s!"Long({value.toInt})"
  | short value => s!"Short({value.toInt})"
  | boolean value => s!"Boolean({value})"
  | string text => s!"String({text.quoted})"

mutual

def ElementValue.shown : ElementValue → String
  | .constant value => "Object(" ++ value.shown ++ ")"
  | .enumConstant typeName constantName =>
    showFields "Enum" [("type_name", typeName.quoted), ("const_name", constantName.quoted)]
  | .classInfo descriptor => "Class(" ++ descriptor.quoted ++ ")"
  | .nested use => "AnnotationInterface(" ++ use.shown ++ ")"
  | .array values => "ArrayType([" ++ ", ".intercalate (ElementValue.shownList values) ++ "])"

/-- The annotation as it would be written in source code, up to the form of its values. -/
def AnnotationUse.shown : AnnotationUse → String
  | ⟨descriptor, elements⟩ =>
    "@" ++ descriptor.quoted ++ "\x7b" ++ ", ".intercalate (Element.shownList elements) ++ "\x7d"

def Element.shown : Element → String
  | ⟨name, value⟩ => name.quoted ++ ": " ++ value.shown

def ElementValue.shownList : List ElementValue → List String
  | [] => []
  | value :: rest => value.shown :: ElementValue.shownList rest

def Element.shownList : List Element → List String
  | [] => []
  | element :: rest => element.shown :: Element.shownList rest

end

end JvmClass
