/-!
# Class file versions
-/

namespace JvmClass

structure Version where
  major : UInt16
  minor : UInt16
deriving DecidableEq, Repr

namespace Version

/-- The latest version that can be read. -/
def latest : Version :=
  ⟨67, 0⟩

/-- Versions are supported by major number, from the first release of the format that numbers them
on. -/
def isSupported (version : Version) : Bool :=
  45 ≤ version.major && version.major ≤ latest.major

/-- The major number decides first. -/
instance : Ord Version where
  compare left right := (compare left.major right.major).then (compare left.minor right.minor)

instance : ToString Version where
  toString version := s!"{version.major.toNat}.{version.minor.toNat}"

end Version

end JvmClass
