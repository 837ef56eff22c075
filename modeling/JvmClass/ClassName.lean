import JvmClass.Text

/-!
# Class names

The name of a class as the constant pool stores it: `java/lang/Object`, or the descriptor of an
array class such as `[I`. A `ClassName` carries the fact that its text is one, so a class name that
exists is never malformed.
-/

namespace JvmClass

namespace ClassName

/-- The parts of a list of units between the slashes in it; there is always at least one. -/
def segments : List UInt16 → List (List UInt16)
  | [] => [[]]
  | unit :: rest =>
    match segments rest with
    | [] => [[unit]]
    | segment :: others =>
      if unit == 0x2F then [] :: segment :: others else (unit :: segment) :: others

/-- An unqualified name: some units, none of which is a full stop, a semicolon, a bracket or a
slash. -/
def isUnqualified (units : List UInt16) : Bool :=
  !units.isEmpty && units.all fun unit =>
    unit != 0x2E && unit != 0x3B && unit != 0x5B && unit != 0x2F

end ClassName

/-- An array class is named by its descriptor, which needs an element type after the brackets; any
other class by unqualified names joined by slashes. -/
def Text.isClassName (text : Text) : Bool :=
  if text.units.head? == some 0x5B then
    text.units.any (· != 0x5B)
  else
    (ClassName.segments text.units).all ClassName.isUnqualified

structure ClassName where
  text : Text
  isClassName : text.isClassName = true
deriving DecidableEq

namespace ClassName

instance : Hashable ClassName where
  hash name := hash name.text

instance : Ord ClassName where
  compare left right := compare left.text right.text

/-- The name as it is written in source code, with a full stop for each slash. -/
def display (name : ClassName) : String :=
  name.text.toStringLossy.map fun c => if c == '/' then '.' else c

/-- The class name of a text that is one. -/
def ofText? (text : Text) : Option ClassName :=
  if h : text.isClassName = true then some ⟨text, h⟩ else none

end ClassName

end JvmClass
