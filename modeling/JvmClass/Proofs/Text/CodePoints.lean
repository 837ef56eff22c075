import JvmClass.Pool.Raw
import JvmClass.Proofs.Text.ModifiedUtf8
import Mathlib.Data.List.Chain

/-!
# Texts by code points

A text is a sequence of code points in which no high surrogate is directly followed by a low one, as
the two would be the units of one supplementary character. Modified UTF-8 stores each code point by
itself: `encodePoint` is the table of its forms. Whatever can be stored is read back, and what was
read is stored as the same bytes, with one exception: standard UTF-8 is read as well, and where it
holds a zero or a sequence of four bytes, these have another form here.
-/

namespace JvmClass.Text

/-! ### Code points and units -/

def IsHighPoint (point : Nat) : Prop :=
  0xD800 ≤ point ∧ point < 0xDC00

def IsLowPoint (point : Nat) : Prop :=
  0xDC00 ≤ point ∧ point < 0xE000

/-- No high surrogate is directly followed by a low one. -/
def Unpaired (points : List Nat) : Prop :=
  points.IsChain fun point next => ¬(IsHighPoint point ∧ IsLowPoint next)

theorem isHigh_iff {unit : UInt16} : isHigh unit ↔ IsHighPoint unit.toNat := by
  simp [isHigh, IsHighPoint, UInt16.le_iff_toNat_le, UInt16.lt_iff_toNat_lt]

theorem isLow_iff {unit : UInt16} : isLow unit ↔ IsLowPoint unit.toNat := by
  simp [isLow, IsLowPoint, UInt16.le_iff_toNat_le, UInt16.lt_iff_toNat_lt]

theorem unitsOfPoint_of_lt {point : Nat} (hlt : point < 0x10000) :
    unitsOfPoint point = [UInt16.ofNat point] :=
  if_pos hlt

theorem exists_pair_of_le {point : Nat} (hle : 0x10000 ≤ point) (hbound : point < 0x110000) :
    ∃ high low : UInt16, unitsOfPoint point = [high, low] ∧
      high.toNat = 0xD800 + (point - 0x10000) / 0x400 ∧
      low.toNat = 0xDC00 + (point - 0x10000) % 0x400 := by
  refine ⟨_, _, if_neg (Nat.not_lt.2 hle), ?_, ?_⟩
  · apply UInt16.toNat_ofNat_of_lt'
    show _ < 65536
    omega
  · apply UInt16.toNat_ofNat_of_lt'
    show _ < 65536
    omega

/-- The units of a code point are read as that code point, unless a high surrogate would make a pair
with what comes next. -/
theorem pointsOfUnits_append {point : Nat} (hbound : point < 0x110000) {rest : List UInt16}
    (hrest : IsHighPoint point → ∀ unit ∈ rest.head?, ¬isLow unit) :
    pointsOfUnits (unitsOfPoint point ++ rest) = point :: pointsOfUnits rest := by
  by_cases hlt : point < 0x10000
  · have hunit : (UInt16.ofNat point).toNat = point := UInt16.toNat_ofNat_of_lt' hlt
    rw [unitsOfPoint_of_lt hlt, List.singleton_append]
    cases rest with
    | nil => simp [pointsOfUnits, hunit]
    | cons next rest =>
      have hsingle : ¬(isHigh (UInt16.ofNat point) && isLow next) := by
        rw [Bool.and_eq_true, isHigh_iff, hunit]
        rintro ⟨hhigh, hlow⟩
        exact hrest hhigh next rfl hlow
      rw [pointsOfUnits, if_neg hsingle, hunit]
  · obtain ⟨high, low, hunits, hhigh, hlow⟩ := exists_pair_of_le (Nat.not_lt.1 hlt) hbound
    have hpair : isHigh high && isLow low := by
      rw [Bool.and_eq_true, isHigh_iff, isLow_iff, IsHighPoint, IsLowPoint]
      omega
    have hpoint : pointOfPair high low = point := by
      unfold pointOfPair
      omega
    rw [hunits, List.cons_append, List.singleton_append, pointsOfUnits, if_pos hpair, hpoint]

theorem isLowPoint_of_head? {point : Nat} (hbound : point < 0x110000) {rest : List UInt16}
    {unit : UInt16} (hunit : unit ∈ (unitsOfPoint point ++ rest).head?) (hlow : isLow unit) :
    IsLowPoint point := by
  rw [isLow_iff] at hlow
  by_cases hlt : point < 0x10000
  · rw [unitsOfPoint_of_lt hlt] at hunit
    cases hunit
    rwa [UInt16.toNat_ofNat_of_lt' hlt] at hlow
  · obtain ⟨high, low, hunits, hhigh, -⟩ := exists_pair_of_le (Nat.not_lt.1 hlt) hbound
    rw [hunits] at hunit
    cases hunit
    unfold IsLowPoint at hlow
    omega

/-- Code points of which no two make a pair are the code points of their text. -/
theorem points_ofPoints {points : List Nat} (hbound : ∀ point ∈ points, point < 0x110000)
    (hunpaired : Unpaired points) : (ofPoints points).points = points := by
  induction points with
  | nil => rfl
  | cons point points ih =>
    obtain ⟨hpoint, hpoints⟩ := List.forall_mem_cons.1 hbound
    obtain ⟨hnext, hrest⟩ := List.isChain_cons.1 hunpaired
    have happend : pointsOfUnits (unitsOfPoint point ++ points.flatMap unitsOfPoint) =
        point :: pointsOfUnits (points.flatMap unitsOfPoint) := by
      apply pointsOfUnits_append hpoint
      intro hhigh unit hunit hlow
      cases points with
      | nil => cases hunit
      | cons next points =>
        have hlowPoint := isLowPoint_of_head? (hpoints next List.mem_cons_self) hunit hlow
        exact hnext next rfl ⟨hhigh, hlowPoint⟩
    exact happend.trans (congrArg (point :: ·) (ih hpoints hrest))

theorem le_pointOfPair (high low : UInt16) : 0x10000 ≤ pointOfPair high low := by
  unfold pointOfPair
  omega

/-- The first code point of units is their first one, or above all units. -/
theorem head?_pointsOfUnits {unit : UInt16} {rest : List UInt16} {point : Nat}
    (hpoint : point ∈ (pointsOfUnits (unit :: rest)).head?) :
    point = unit.toNat ∨ 0x10000 ≤ point := by
  cases rest with
  | nil =>
    cases hpoint
    exact .inl rfl
  | cons next rest =>
    rw [pointsOfUnits] at hpoint
    split at hpoint
    · rw [List.head?_cons, Option.mem_some_iff] at hpoint
      exact .inr (hpoint ▸ le_pointOfPair unit next)
    · rw [List.head?_cons, Option.mem_some_iff] at hpoint
      exact .inl hpoint.symm

theorem unpaired_points (text : Text) : Unpaired text.points := by
  obtain ⟨units⟩ := text
  change Unpaired (pointsOfUnits units)
  fun_induction pointsOfUnits units with
  | case1 => exact .nil
  | case2 unit => exact .singleton _
  | case3 unit next rest hpair ih =>
    refine ih.cons ?_
    rintro point - ⟨hhigh, -⟩
    have hle := le_pointOfPair unit next
    unfold IsHighPoint at hhigh
    omega
  | case4 unit next rest hsingle ih =>
    refine ih.cons ?_
    rintro point hpoint ⟨hhigh, hlow⟩
    rcases head?_pointsOfUnits hpoint with rfl | hle
    · apply hsingle
      rw [Bool.and_eq_true]
      exact ⟨isHigh_iff.2 hhigh, isLow_iff.2 hlow⟩
    · unfold IsLowPoint at hlow
      omega

theorem unitsOfPoint_toNat (unit : UInt16) : unitsOfPoint unit.toNat = [unit] := by
  rw [unitsOfPoint_of_lt unit.toNat_lt, UInt16.ofNat_toNat]

theorem pointOfPair_lt {high low : UInt16} (hhigh : isHigh high) (hlow : isLow low) :
    pointOfPair high low < 0x110000 := by
  obtain ⟨hfirst, hlast⟩ := isHigh_iff.1 hhigh
  obtain ⟨hlowFirst, hlowLast⟩ := isLow_iff.1 hlow
  unfold pointOfPair
  omega

theorem unitsOfPoint_pointOfPair {high low : UInt16} (hhigh : isHigh high) (hlow : isLow low) :
    unitsOfPoint (pointOfPair high low) = [high, low] := by
  obtain ⟨hfirst, hlast⟩ := isHigh_iff.1 hhigh
  obtain ⟨hlowFirst, hlowLast⟩ := isLow_iff.1 hlow
  obtain ⟨first, second, hunits, hfirstUnit, hsecondUnit⟩ :=
    exists_pair_of_le (le_pointOfPair high low) (pointOfPair_lt hhigh hlow)
  unfold pointOfPair at hfirstUnit hsecondUnit
  have hhighUnit : first = high := by
    apply UInt16.toNat_inj.1
    omega
  have hlowUnit : second = low := by
    apply UInt16.toNat_inj.1
    omega
  rw [hunits, hhighUnit, hlowUnit]

theorem lt_of_mem_points (text : Text) : ∀ point ∈ text.points, point < 0x110000 := by
  obtain ⟨units⟩ := text
  change ∀ point ∈ pointsOfUnits units, point < 0x110000
  have hunit : ∀ unit : UInt16, unit.toNat < 0x110000 := fun unit =>
    Nat.lt_trans unit.toNat_lt (by decide)
  fun_induction pointsOfUnits units with
  | case1 => exact fun _ hpoint => absurd hpoint List.not_mem_nil
  | case2 unit => exact List.forall_mem_singleton.2 (hunit unit)
  | case3 unit next rest hpair ih =>
    obtain ⟨hhigh, hlow⟩ := Bool.and_eq_true_iff.1 hpair
    exact List.forall_mem_cons.2 ⟨pointOfPair_lt hhigh hlow, ih⟩
  | case4 unit next rest _ ih => exact List.forall_mem_cons.2 ⟨hunit unit, ih⟩

theorem ofPoints_points (text : Text) : ofPoints text.points = text := by
  have hunits : ∀ units, (pointsOfUnits units).flatMap unitsOfPoint = units := by
    intro units
    fun_induction pointsOfUnits units with
    | case1 => rfl
    | case2 unit => rw [List.flatMap_singleton, unitsOfPoint_toNat]
    | case3 unit next rest hpair ih =>
      obtain ⟨hhigh, hlow⟩ := Bool.and_eq_true_iff.1 hpair
      rw [List.flatMap_cons, unitsOfPoint_pointOfPair hhigh hlow, ih]
      rfl
    | case4 unit next rest _ ih =>
      rw [List.flatMap_cons, unitsOfPoint_toNat, ih]
      rfl
  exact congrArg Text.mk (hunits text.units)

namespace ModifiedUtf8

/-! ### Modified UTF-8 by code points -/

/-- The bytes of a code point: one from 1 to 127, two for zero and up to 2047, three up to 65535,
and six for a supplementary character, three for each unit of its surrogate pair. -/
def encodePoint (point : Nat) : List UInt8 :=
  if point = 0 then
    [0xC0, 0x80]
  else if point < 0x80 then
    [UInt8.ofNat point]
  else if point < 0x800 then
    [UInt8.ofNat (0xC0 + point / 0x40), UInt8.ofNat (0x80 + point % 0x40)]
  else if point < 0x10000 then
    [UInt8.ofNat (0xE0 + point / 0x1000), UInt8.ofNat (0x80 + point / 0x40 % 0x40),
      UInt8.ofNat (0x80 + point % 0x40)]
  else
    [0xED, UInt8.ofNat (0xA0 + (point / 0x10000 - 1)), UInt8.ofNat (0x80 + point / 0x400 % 0x40),
      0xED, UInt8.ofNat (0xB0 + point / 0x40 % 0x10), UInt8.ofNat (0x80 + point % 0x40)]

theorem flatMap_encodeUnit_of_lt {point : Nat} (hlt : point < 0x10000) :
    (unitsOfPoint point).flatMap encodeUnit = encodePoint point := by
  have hunit : (UInt16.ofNat point).toNat = point := UInt16.toNat_ofNat_of_lt' hlt
  rw [unitsOfPoint_of_lt hlt, List.flatMap_singleton, encodeUnit, encodePoint, hunit]
  by_cases hzero : point = 0
  · rw [hzero]
    rfl
  · simp [hzero, hlt, Nat.pos_of_ne_zero hzero]

theorem encodeUnit_of_surrogate {unit : UInt16} (hle : 0xD800 ≤ unit.toNat)
    (hlt : unit.toNat < 0xE000) :
    encodeUnit unit = [0xED, UInt8.ofNat (0x80 + unit.toNat / 0x40 % 0x40),
      UInt8.ofNat (0x80 + unit.toNat % 0x40)] := by
  have hfirst : 0xE0 + unit.toNat / 0x1000 = 0xED := by omega
  unfold encodeUnit
  dsimp only
  rw [if_neg (by omega), if_neg (by omega), hfirst]
  rfl

theorem flatMap_encodeUnit_of_le {point : Nat} (hle : 0x10000 ≤ point)
    (hbound : point < 0x110000) :
    (unitsOfPoint point).flatMap encodeUnit = encodePoint point := by
  obtain ⟨high, low, hunits, hhigh, hlow⟩ := exists_pair_of_le hle hbound
  have hhighSecond : 0x80 + high.toNat / 0x40 % 0x40 = 0xA0 + (point / 0x10000 - 1) := by omega
  have hhighThird : high.toNat % 0x40 = point / 0x400 % 0x40 := by omega
  have hlowSecond : 0x80 + low.toNat / 0x40 % 0x40 = 0xB0 + point / 0x40 % 0x10 := by omega
  have hlowThird : low.toNat % 0x40 = point % 0x40 := by omega
  rw [hunits, List.flatMap_cons, List.flatMap_singleton,
    encodeUnit_of_surrogate (by omega) (by omega), encodeUnit_of_surrogate (by omega) (by omega),
    hhighSecond, hhighThird, hlowSecond, hlowThird, encodePoint, if_neg (by omega),
    if_neg (by omega), if_neg (by omega), if_neg (by omega)]
  rfl

theorem encode_ofPoints {points : List Nat} (hbound : ∀ point ∈ points, point < 0x110000) :
    encode (ofPoints points) = points.flatMap encodePoint := by
  rw [encode, ofPoints, List.flatMap_assoc, List.flatMap_def, List.flatMap_def]
  congr 1
  apply List.map_congr_left
  intro point hmem
  by_cases hlt : point < 0x10000
  · exact flatMap_encodeUnit_of_lt hlt
  · exact flatMap_encodeUnit_of_le (Nat.not_lt.1 hlt) (hbound point hmem)

/-! ### Standard UTF-8 -/

def IsTail (byte : UInt8) : Prop :=
  0x80 ≤ byte.toNat ∧ byte.toNat < 0xC0

/-- The bytes are the one sequence that stands for the code point, which is no surrogate. -/
inductive IsSequence (point : Nat) : List UInt8 → Prop
  | one {a : UInt8} (ha : a.toNat < 0x80) (hpoint : point = a.toNat) : IsSequence point [a]
  | two {a b : UInt8} (ha : 0xC2 ≤ a.toNat ∧ a.toNat < 0xE0) (hb : IsTail b)
      (hpoint : point = a.toNat % 32 * 64 + bits b) : IsSequence point [a, b]
  | three {a b c : UInt8} (ha : 0xE0 ≤ a.toNat ∧ a.toNat < 0xF0) (hb : IsTail b) (hc : IsTail c)
      (hlong : a.toNat = 0xE0 → 0xA0 ≤ b.toNat) (hplain : a.toNat = 0xED → b.toNat < 0xA0)
      (hpoint : point = a.toNat % 16 * 4096 + bits b * 64 + bits c) : IsSequence point [a, b, c]
  | four {a b c d : UInt8} (ha : 0xF0 ≤ a.toNat ∧ a.toNat < 0xF5) (hb : IsTail b) (hc : IsTail c)
      (hd : IsTail d) (hlong : a.toNat = 0xF0 → 0x90 ≤ b.toNat)
      (hlast : a.toNat = 0xF4 → b.toNat < 0x90)
      (hpoint : point = a.toNat % 8 * 262144 + bits b * 4096 + bits c * 64 + bits d) :
      IsSequence point [a, b, c, d]

private theorem toNat_byte {n : Nat} (hlt : n < 256) : (UInt8.ofNat n).toNat = n :=
  UInt8.toNat_ofNat_of_lt' hlt

theorem isSequence_utf8EncodeChar (c : Char) : IsSequence c.toNat (String.utf8EncodeChar c) := by
  have hvalid : c.toNat.isValidChar := c.valid
  unfold String.utf8EncodeChar
  rw [Char.toNat_val]
  generalize c.toNat = point at hvalid
  dsimp only
  split
  · rename_i hle
    have ha := toNat_byte (show point < 256 by omega)
    exact .one (by omega) ha.symm
  · split
    · rename_i hle
      have ha := toNat_byte (show point / 64 % 32 + 192 < 256 by omega)
      have hb := toNat_byte (show point % 64 + 128 < 256 by omega)
      apply IsSequence.two <;> (try unfold IsTail) <;> (try unfold bits) <;> omega
    · split
      · rename_i hle
        have ha := toNat_byte (show point / 4096 % 16 + 224 < 256 by omega)
        have hb := toNat_byte (show point / 64 % 64 + 128 < 256 by omega)
        have hc := toNat_byte (show point % 64 + 128 < 256 by omega)
        apply IsSequence.three <;> (try unfold IsTail) <;> (try unfold bits) <;> omega
      · have ha := toNat_byte (show point / 262144 % 8 + 240 < 256 by omega)
        have hb := toNat_byte (show point / 4096 % 64 + 128 < 256 by omega)
        have hc := toNat_byte (show point / 64 % 64 + 128 < 256 by omega)
        have hd := toNat_byte (show point % 64 + 128 < 256 by omega)
        apply IsSequence.four <;> (try unfold IsTail) <;> (try unfold bits) <;> omega

private theorem byte_eq {n : Nat} (byte : UInt8) (hbyte : n = byte.toNat) :
    UInt8.ofNat n = byte := by
  rw [hbyte, UInt8.ofNat_toNat]

/-- A sequence is that of a character. -/
theorem IsSequence.exists_char {point : Nat} {bytes : List UInt8} (hform : IsSequence point bytes) :
    ∃ c : Char, c.toNat = point ∧ String.utf8EncodeChar c = bytes := by
  have hvalid : point.isValidChar := by
    cases hform <;> simp only [IsTail, bits, Nat.isValidChar] at * <;> omega
  have hpoint : (Char.ofNatAux point hvalid).toNat = point := rfl
  refine ⟨Char.ofNatAux point hvalid, hpoint, ?_⟩
  unfold String.utf8EncodeChar
  rw [Char.toNat_val, hpoint]
  dsimp only
  cases hform with
  | one ha hpoint => rw [if_pos (by omega), byte_eq _ hpoint]
  | @two a b ha hb hpoint =>
    unfold IsTail at hb
    unfold bits at hpoint
    rw [if_neg (by omega), if_pos (by omega), byte_eq a (by omega), byte_eq b (by omega)]
  | @three a b c ha hb hc hlong hplain hpoint =>
    unfold IsTail at hb hc
    unfold bits at hpoint
    rw [if_neg (by omega), if_neg (by omega), if_pos (by omega), byte_eq a (by omega),
      byte_eq b (by omega), byte_eq c (by omega)]
  | @four a b c d ha hb hc hd hlong hlast hpoint =>
    unfold IsTail at hb hc hd
    unfold bits at hpoint
    rw [if_neg (by omega), if_neg (by omega), if_neg (by omega), byte_eq a (by omega),
      byte_eq b (by omega), byte_eq c (by omega), byte_eq d (by omega)]

theorem isContinuation_iff {byte : UInt8} : isContinuation byte ↔ IsTail byte := by
  simp [isContinuation, IsTail, UInt8.le_iff_toNat_le, UInt8.lt_iff_toNat_lt]

theorem isSecondOfThree_iff {a b : UInt8} :
    isSecondOfThree a b ↔
      IsTail b ∧ (a.toNat = 0xE0 → 0xA0 ≤ b.toNat) ∧ (a.toNat = 0xED → b.toNat < 0xA0) := by
  simp [isSecondOfThree, isContinuation_iff, UInt8.le_iff_toNat_le, UInt8.lt_iff_toNat_lt,
    ← UInt8.toNat_inj, and_assoc, imp_iff_not_or]

theorem isSecondOfFour_iff {a b : UInt8} :
    isSecondOfFour a b ↔
      IsTail b ∧ (a.toNat = 0xF0 → 0x90 ≤ b.toNat) ∧ (a.toNat = 0xF4 → b.toNat < 0x90) := by
  simp [isSecondOfFour, isContinuation_iff, UInt8.le_iff_toNat_le, UInt8.lt_iff_toNat_lt,
    ← UInt8.toNat_inj, and_assoc, imp_iff_not_or]

theorem IsSequence.decodeStandardFrom_append {point : Nat} {bytes : List UInt8}
    (hform : IsSequence point bytes) (units : List UInt16) (rest : List UInt8) :
    decodeStandardFrom units (bytes ++ rest) =
      decodeStandardFrom ((unitsOfPoint point).reverse ++ units) rest := by
  cases hform with
  | @one a ha hpoint =>
    have hunit : a.toUInt16 = UInt16.ofNat point := by
      rw [hpoint, ← UInt16.toNat_inj, UInt8.toNat_toUInt16,
        UInt16.toNat_ofNat_of_lt' (show _ < 65536 by omega)]
    have hlt : a < 0x80 := UInt8.lt_iff_toNat_lt.2 ha
    rw [unitsOfPoint_of_lt (by omega), List.singleton_append, decodeStandardFrom.eq_def]
    simp [hlt, hunit]
  | @two a b ha hb hpoint =>
    have hlow : 0xC2 ≤ a := UInt8.le_iff_toNat_le.2 ha.1
    have hmany : ¬a < 0x80 := not_lt_of_le hlow (by decide)
    have hhigh : a < 0xE0 := UInt8.lt_iff_toNat_lt.2 ha.2
    rw [unitsOfPoint_of_lt (by unfold bits at hpoint; omega), List.cons_append,
      decodeStandardFrom.eq_def]
    simp [hmany, hlow, hhigh, isContinuation_iff.2 hb, unitOfTwo, hpoint]
  | @three a b c ha hb hc hlong hplain hpoint =>
    have hlow : 0xE0 ≤ a := UInt8.le_iff_toNat_le.2 ha.1
    have hmany : ¬a < 0x80 := not_lt_of_le hlow (by decide)
    have hhigh : a < 0xF0 := UInt8.lt_iff_toNat_lt.2 ha.2
    have hsecond : isSecondOfThree a b := isSecondOfThree_iff.2 ⟨hb, hlong, hplain⟩
    rw [unitsOfPoint_of_lt (by unfold bits at hpoint; omega), List.cons_append,
      decodeStandardFrom.eq_def]
    simp [hmany, hlow, hhigh, UInt8.not_lt.2 hlow, hsecond, isContinuation_iff.2 hc, unitOfThree,
      hpoint]
  | @four a b c d ha hb hc hd hlong hlast hpoint =>
    have hlow : 0xF0 ≤ a := UInt8.le_iff_toNat_le.2 ha.1
    have hmany : ¬a < 0x80 := not_lt_of_le hlow (by decide)
    have htwo : ¬a < 0xE0 := not_lt_of_le hlow (by decide)
    have hhigh : a < 0xF5 := UInt8.lt_iff_toNat_lt.2 ha.2
    have hsecond : isSecondOfFour a b := isSecondOfFour_iff.2 ⟨hb, hlong, hlast⟩
    rw [List.cons_append, decodeStandardFrom.eq_def]
    simp [hmany, htwo, hlow, hhigh, UInt8.not_lt.2 hlow, hsecond, isContinuation_iff.2 hc,
      isContinuation_iff.2 hd, hpoint]

/-- The characters of the bytes were read after the given units, which stand in reverse. -/
private def SpeltAs (units result : List UInt16) (bytes : List UInt8) : Prop :=
  ∃ chars : List Char, bytes = chars.flatMap String.utf8EncodeChar ∧
    result = units.reverse ++ (chars.map Char.toNat).flatMap unitsOfPoint

private theorem SpeltAs.append {point : Nat} {units result : List UInt16} {front rest : List UInt8}
    (hform : IsSequence point front)
    (hrest : SpeltAs ((unitsOfPoint point).reverse ++ units) result rest) :
    SpeltAs units result (front ++ rest) := by
  obtain ⟨chars, rfl, rfl⟩ := hrest
  obtain ⟨c, rfl, rfl⟩ := hform.exists_char
  exact ⟨c :: chars, rfl, by simp⟩

private theorem speltAs_of_decodeStandardFrom {units result : List UInt16} {bytes : List UInt8}
    (hdecode : decodeStandardFrom units bytes = some result) : SpeltAs units result bytes := by
  -- One case for each length of a sequence; in all others reading fails.
  fun_induction decodeStandardFrom units bytes with
  | case1 units =>
    cases hdecode
    exact ⟨[], rfl, (List.append_nil _).symm⟩
  | case2 units a rest hlt ih =>
    have ha : a.toNat < 128 := UInt8.lt_iff_toNat_lt.1 hlt
    have hunit : UInt16.ofNat a.toNat = a.toUInt16 := by
      rw [← UInt16.toNat_inj, UInt8.toNat_toUInt16,
        UInt16.toNat_ofNat_of_lt' (show _ < 65536 by omega)]
    apply SpeltAs.append (.one ha rfl)
    rw [unitsOfPoint_of_lt (by omega), hunit]
    exact ih hdecode
  | case4 units a _ b rest hfirst hb ih =>
    simp only [Bool.and_eq_true, decide_eq_true_eq, UInt8.le_iff_toNat_le,
      UInt8.lt_iff_toNat_lt] at hfirst
    apply SpeltAs.append (.two hfirst (isContinuation_iff.1 hb) rfl)
    rw [unitsOfPoint_of_lt (by unfold bits; omega)]
    exact ih hdecode
  | case7 units a _ b _ c rest hfirst hothers ih =>
    simp only [Bool.and_eq_true, decide_eq_true_eq, UInt8.le_iff_toNat_le,
      UInt8.lt_iff_toNat_lt, isSecondOfThree_iff, isContinuation_iff] at hfirst hothers
    obtain ⟨⟨hb, hlong, hplain⟩, hc⟩ := hothers
    apply SpeltAs.append (.three hfirst hb hc hlong hplain rfl)
    rw [unitsOfPoint_of_lt (by unfold bits; omega)]
    exact ih hdecode
  | case10 units a _ b _ c _ d rest hall point ih =>
    simp only [Bool.and_eq_true, decide_eq_true_eq, UInt8.le_iff_toNat_le,
      UInt8.lt_iff_toNat_lt, isSecondOfFour_iff, isContinuation_iff] at hall
    obtain ⟨⟨⟨ha, hb, hlong, hlast⟩, hc⟩, hd⟩ := hall
    exact .append (.four ha hb hc hd hlong hlast rfl) (ih hdecode)
  | _ => cases hdecode

theorem decodeStandardFrom_flatMap_utf8EncodeChar (chars : List Char) (units : List UInt16) :
    decodeStandardFrom units (chars.flatMap String.utf8EncodeChar) =
      some (units.reverse ++ (chars.map Char.toNat).flatMap unitsOfPoint) := by
  induction chars generalizing units with
  | nil => exact congrArg some (List.append_nil _).symm
  | cons c chars ih =>
    rw [List.flatMap_cons, (isSequence_utf8EncodeChar c).decodeStandardFrom_append, ih]
    simp

/-- What is read as standard UTF-8 is exactly the UTF-8 of a list of characters. -/
theorem isSome_decodeStandard?_iff {bytes : List UInt8} :
    (decodeStandard? bytes).isSome ↔ ∃ chars : List Char,
      bytes = chars.flatMap String.utf8EncodeChar := by
  rw [decodeStandard?, Option.isSome_map]
  constructor
  · intro hsome
    obtain ⟨result, hresult⟩ := Option.isSome_iff_exists.1 hsome
    obtain ⟨chars, hchars, -⟩ := speltAs_of_decodeStandardFrom hresult
    exact ⟨chars, hchars⟩
  · rintro ⟨chars, rfl⟩
    rw [decodeStandardFrom_flatMap_utf8EncodeChar]
    rfl

theorem IsSequence.exists_le_iff {point : Nat} {bytes : List UInt8}
    (hform : IsSequence point bytes) : (∃ byte ∈ bytes, 0xF0 ≤ byte) ↔ bytes.length = 4 := by
  have hle : ∀ byte : UInt8, 0xF0 ≤ byte ↔ 240 ≤ byte.toNat := fun _ => UInt8.le_iff_toNat_le
  cases hform with
  | four ha => exact iff_of_true ⟨_, List.mem_cons_self, (hle _).2 ha.1⟩ rfl
  | _ =>
    simp only [hle, IsTail, List.mem_cons, List.not_mem_nil, or_false, exists_eq_or_imp,
      exists_eq_left, List.length_cons, List.length_nil] at *
    omega

/-- The bytes are standard UTF-8 with a zero or a sequence of four bytes in it. -/
def IsRewritten (bytes : List UInt8) : Prop :=
  ∃ chars : List Char, bytes = chars.flatMap String.utf8EncodeChar ∧
    (0 ∈ bytes ∨ ∃ c ∈ chars, (String.utf8EncodeChar c).length = 4)

theorem not_isPlain_iff {bytes : List UInt8} : ¬IsPlain bytes ↔ IsRewritten bytes := by
  have hbyte : ∀ byte : UInt8, ¬(byte ≠ 0 ∧ byte < 0xF0) ↔ byte = 0 ∨ 0xF0 ≤ byte := by
    intro byte
    rw [not_and_or, not_not, UInt8.not_lt]
  have hbytes : (¬∀ byte ∈ bytes, byte ≠ 0 ∧ byte < 0xF0) ↔
      0 ∈ bytes ∨ ∃ byte ∈ bytes, 0xF0 ≤ byte := by
    simp only [Classical.not_forall, hbyte, exists_prop, and_or_left, exists_or, exists_eq_right]
  have hfour : ∀ chars : List Char, (∃ byte ∈ chars.flatMap String.utf8EncodeChar, 0xF0 ≤ byte) ↔
      ∃ c ∈ chars, (String.utf8EncodeChar c).length = 4 := by
    intro chars
    simp only [← (isSequence_utf8EncodeChar _).exists_le_iff, List.mem_flatMap]
    grind
  rw [IsPlain, Classical.not_imp, isSome_decodeStandard?_iff, hbytes]
  constructor
  · rintro ⟨⟨chars, rfl⟩, hcontains⟩
    exact ⟨chars, rfl, hcontains.imp_right (hfour chars).1⟩
  · rintro ⟨chars, rfl, hcontains⟩
    exact ⟨⟨chars, rfl⟩, hcontains.imp_right (hfour chars).2⟩

theorem encode_eq_iff_of_decode {bytes : List UInt8} {text : Text}
    (hdecode : decode bytes = .ok text) : encode text = bytes ↔ IsPlain bytes := by
  constructor
  · intro hencode hstandard byte hbyte
    have hlength := length_encode_of_decode hdecode
    rw [hencode, rewrittenSize, if_pos hstandard] at hlength
    constructor
    · rintro rfl
      have hpos : 0 < bytes.count 0 := List.count_pos_iff.2 hbyte
      omega
    · apply UInt8.not_le.1
      intro hle
      have hpos : 0 < bytes.countP (0xF0 ≤ ·) :=
        List.countP_pos_iff.2 ⟨byte, hbyte, decide_eq_true hle⟩
      omega
  · exact encode_of_decode hdecode

theorem textBytes_eq_error_iff {text : Text} :
    (∃ error, RawEntry.textBytes text = .error error ∧ error.kind = .capacity) ↔
      65535 < (encode text).length := by
  unfold RawEntry.textBytes
  dsimp only
  split
  · rename_i hlt
    constructor
    · rintro ⟨error, herror, -⟩
      cases herror
    · intro hlong
      omega
  · rename_i hge
    constructor
    · intro _
      omega
    · intro _
      exact ⟨_, rfl, rfl⟩

/-- Modified UTF-8 is faithful. Code points of which no two make a pair are refused exactly if they
take more than 65535 bytes, and else are read back as the text that has just these code points. What
is read from bytes is such code points, and their form is the bytes again, except for standard UTF-8
with a zero or a sequence of four bytes in it. -/
theorem faithful :
    (∀ points : List Nat, (∀ point ∈ points, point < 0x110000) → Unpaired points →
      (ofPoints points).points = points ∧
      ((∃ error, RawEntry.textBytes (ofPoints points) = .error error ∧ error.kind = .capacity) ↔
        65535 < (points.flatMap encodePoint).length) ∧
      ((points.flatMap encodePoint).length ≤ 65535 →
        RawEntry.textBytes (ofPoints points) = .ok (points.flatMap encodePoint) ∧
          decode (points.flatMap encodePoint) = .ok (ofPoints points))) ∧
    ∀ (bytes : List UInt8) (text : Text), decode bytes = .ok text →
      ∃ points : List Nat, (∀ point ∈ points, point < 0x110000) ∧ Unpaired points ∧
        text = ofPoints points ∧ (points.flatMap encodePoint = bytes ↔ ¬IsRewritten bytes) := by
  constructor
  · intro points hbound hunpaired
    have hencode := encode_ofPoints hbound
    refine ⟨points_ofPoints hbound hunpaired, ?_, ?_⟩
    · rw [← hencode]
      exact textBytes_eq_error_iff
    · intro hle
      rw [← hencode] at hle ⊢
      exact ⟨if_pos (Nat.lt_succ_of_le hle), decode_encode _⟩
  · intro bytes text hdecode
    refine ⟨text.points, text.lt_of_mem_points, text.unpaired_points, text.ofPoints_points.symm, ?_⟩
    rw [← encode_ofPoints text.lt_of_mem_points, ofPoints_points, encode_eq_iff_of_decode hdecode,
      ← not_isPlain_iff, not_not]

/-- A zero, and surrogates that stand alone around a supplementary character. -/
def mixedPoints : List Nat :=
  [0, 0x41, 0xDC00, 0xD800, 0x1F600, 0xDFFF, 0xD800, 0xFFFF]

/-- The mixed code points are read back; 21846 code points of three bytes are refused; a zero byte
is read, and written as two bytes. -/
theorem faithful_mixedPoints :
    (∀ point ∈ mixedPoints, point < 0x110000) ∧ Unpaired mixedPoints ∧
      decode (mixedPoints.flatMap encodePoint) = .ok (ofPoints mixedPoints) ∧
      (∃ error, RawEntry.textBytes (ofPoints (List.replicate 21846 0xFFFF)) = .error error ∧
        error.kind = .capacity) ∧
      decode [0x41, 0x00] = .ok (ofPoints [0x41, 0]) ∧
      (ofPoints [0x41, 0]).points.flatMap encodePoint ≠ [0x41, 0x00] := by
  have hbound : ∀ point ∈ mixedPoints, point < 0x110000 := by decide
  have hunpaired : Unpaired mixedPoints := by
    simp [Unpaired, mixedPoints, IsHighPoint, IsLowPoint]
  have hzero : decode [0x41, 0x00] = .ok (ofPoints [0x41, 0]) := by decide
  refine ⟨hbound, hunpaired, ?_, ?_, hzero, ?_⟩
  · exact ((faithful.1 mixedPoints hbound hunpaired).2.2 (by decide)).2
  · have hmany : 65535 < ((List.replicate 21846 0xFFFF).flatMap encodePoint).length := by
      rw [List.length_flatMap, List.map_replicate, List.sum_replicate_nat]
      decide
    refine (faithful.1 _ ?_ ?_).2.1.2 hmany
    · intro point hpoint
      rw [List.eq_of_mem_replicate hpoint]
      decide
    · apply List.isChain_replicate_of_rel
      simp [IsHighPoint]
  · obtain ⟨points, hpoints, hpaired, htext, hsame⟩ := faithful.2 _ _ hzero
    rw [htext, points_ofPoints hpoints hpaired, ne_eq, hsame, not_not]
    exact ⟨['A', '\x00'], by decide, .inl (by decide)⟩

end ModifiedUtf8

end JvmClass.Text
