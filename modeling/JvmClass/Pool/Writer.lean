import JvmClass.Pool.Intern

/-!
# Writing with a pool

What is written refers to constants, so writing is a computation on the pool whose result is bytes.
Lists are written behind their length, and fail on a length that does not fit before anything in
them is looked at.
-/

namespace JvmClass

namespace PoolM

variable {α : Type}

/-- Writes values one after the other, behind what is written already. -/
def writeAllFrom (write : α → PoolM Bytes) : List α → (written : Array UInt8) → Pool →
    Except Error Bytes × Pool
  | [], written, pool => (.ok written.toList, pool)
  | value :: rest, written, pool =>
    match (write value).run pool with
    | (.ok bytes, pool) => writeAllFrom write rest (written ++ bytes) pool
    | (.error error, pool) => (.error error, pool)

def writeAll (write : α → PoolM Bytes) (values : List α) : PoolM Bytes :=
  ExceptT.mk (writeAllFrom write values #[])

/-- A list behind its length, which takes `width` bytes. The length is checked before any value is
written. -/
def writeList (width : Nat) (write : α → PoolM Bytes) (values : List α) : PoolM Bytes := do
  let count ← Bytes.ofCount width values.length
  let contents ← writeAll write values
  return count ++ contents

/-- The index of a constant, as two bytes. -/
def writeIndex (put : PoolM UInt16) : PoolM Bytes :=
  Bytes.ofUInt16 <$> put

end PoolM

end JvmClass
