/-!
# Labels

A label names a place in a list of instructions. Instructions, tables and frames refer to places by
label only, so a list can be changed without changing what refers into it; offsets exist just in
assembled bytecode.
-/

namespace JvmClass

structure Label where
  id : UInt32
deriving DecidableEq, Hashable, Repr

/-- The instructions from the one at `start` up to the one before `stop`. -/
structure LabelRange where
  start : Label
  stop : Label
deriving DecidableEq, Repr

end JvmClass
