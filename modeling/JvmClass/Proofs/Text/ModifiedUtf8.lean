import JvmClass.Text.ModifiedUtf8

/-!
# Texts are read back

What modified UTF-8 writes for a text is read as that text. The bytes of one unit are taken off the
front as that unit when reading unit by unit. Reading them as standard UTF-8 gives the same unit or
fails, which it does for zero and for surrogates, so it does not matter that it is tried first.

The other way round, bytes are read as a text that is written as the same bytes, unless they are
standard UTF-8 with a zero or a sequence of four bytes in it.
-/

namespace JvmClass.Text.ModifiedUtf8

/-! ### The bytes of one unit -/

private theorem toNat_ofNat {n : Nat} (hlt : n < 256) : (UInt8.ofNat n).toNat = n :=
  UInt8.toNat_ofNat_of_lt' hlt

private theorem isContinuation_ofNat {n : Nat} (hlt : n < 64) :
    isContinuation (UInt8.ofNat (0x80 + n)) = true := by
  have hbyte : (UInt8.ofNat (0x80 + n)).toNat = 0x80 + n := toNat_ofNat (by omega)
  simp only [isContinuation, Bool.and_eq_true, decide_eq_true_eq, UInt8.le_iff_toNat_le,
    UInt8.lt_iff_toNat_lt, hbyte]
  constructor
  · exact Nat.le_add_right _ _
  · change 0x80 + n < 192
    omega

private theorem bits_ofNat {n : Nat} (hlt : n < 64) : bits (UInt8.ofNat (0x80 + n)) = n := by
  rw [bits, toNat_ofNat (by omega)]
  omega

/-- The bytes of a unit are one from 1 to 127, or two of which the first is from 194 on unless the
unit is zero, or three that are not an overlong form. -/
theorem encodeUnit_cases (unit : UInt16) :
    (∃ a : UInt8, encodeUnit unit = [a] ∧ a ≠ 0 ∧ a < 0x80 ∧ a.toUInt16 = unit) ∨
      (encodeUnit unit = [0xC0, 0x80] ∧ unit = 0) ∨
      (∃ a b : UInt8, encodeUnit unit = [a, b] ∧ 0xC2 ≤ a ∧ a < 0xE0 ∧ isContinuation b ∧
        unitOfTwo a b = unit) ∨
      ∃ a b c : UInt8, encodeUnit unit = [a, b, c] ∧ 0xE0 ≤ a ∧ a < 0xF0 ∧ isContinuation b ∧
        isContinuation c ∧ (a = 0xE0 → 0xA0 ≤ b) ∧ unitOfThree a b c = unit := by
  have hunit : unit.toNat < 65536 := unit.toNat_lt
  have hback : UInt16.ofNat unit.toNat = unit := UInt16.ofNat_toNat
  unfold encodeUnit
  dsimp only
  generalize unit.toNat = n at hunit hback
  by_cases hone : 0 < n ∧ n < 0x80
  · rw [if_pos hone]
    have hbyte : (UInt8.ofNat n).toNat = n := toNat_ofNat (by omega)
    refine .inl ⟨_, rfl, ?_, ?_, ?_⟩
    · intro hzero
      rw [hzero] at hbyte
      exact absurd hbyte (by change ¬0 = n; omega)
    · rw [UInt8.lt_iff_toNat_lt, hbyte]
      exact hone.2
    · rw [← hback, ← UInt16.toNat_inj, UInt8.toNat_toUInt16, hbyte,
        UInt16.toNat_ofNat_of_lt' hunit]
  · rw [if_neg hone]
    by_cases htwo : n < 0x800
    · rw [if_pos htwo]
      by_cases hzero : n = 0
      · subst hzero
        exact .inr (.inl ⟨rfl, hback.symm⟩)
      · have hbyte : (UInt8.ofNat (0xC0 + n / 64)).toNat = 0xC0 + n / 64 := toNat_ofNat (by omega)
        refine .inr (.inr (.inl ⟨_, _, rfl, ?_, ?_, isContinuation_ofNat (by omega), ?_⟩))
        · rw [UInt8.le_iff_toNat_le, hbyte]
          change 194 ≤ _
          omega
        · rw [UInt8.lt_iff_toNat_lt, hbyte]
          change _ < 224
          omega
        · rw [unitOfTwo, hbyte, bits_ofNat (by omega), ← hback]
          congr 1
          omega
    · rw [if_neg htwo]
      have hfirst : (UInt8.ofNat (0xE0 + n / 4096)).toNat = 0xE0 + n / 4096 :=
        toNat_ofNat (by omega)
      have hsecond : (UInt8.ofNat (0x80 + n / 64 % 64)).toNat = 0x80 + n / 64 % 64 :=
        toNat_ofNat (by omega)
      refine .inr (.inr (.inr ⟨_, _, _, rfl, ?_, ?_, isContinuation_ofNat (by omega),
        isContinuation_ofNat (by omega), ?_, ?_⟩))
      · rw [UInt8.le_iff_toNat_le, hfirst]
        exact Nat.le_add_right _ _
      · rw [UInt8.lt_iff_toNat_lt, hfirst]
        change _ < 240
        omega
      · intro hlow
        rw [hlow] at hfirst
        rw [UInt8.le_iff_toNat_le, hsecond]
        change 224 = _ at hfirst
        change 160 ≤ _
        omega
      · rw [unitOfThree, hfirst, bits_ofNat (by omega), bits_ofNat (by omega), ← hback]
        congr 1
        omega

theorem not_lt_of_le {a bound low : UInt8} (hlow : low ≤ a) (hbound : bound ≤ low) :
    ¬a < bound :=
  UInt8.not_lt.2 (UInt8.le_trans hbound hlow)

private theorem beq_eq_false_of_lt {a b : UInt8} (hlt : b < a) : (a == b) = false := by
  rw [beq_eq_false_iff_ne]
  rintro rfl
  exact UInt8.lt_irrefl _ hlt

/-! ### Reading unit by unit -/

theorem decodeUnitsFrom_encodeUnit (unit : UInt16) (offset : Nat) (units : List UInt16)
    (rest : List UInt8) :
    decodeUnitsFrom offset units (encodeUnit unit ++ rest) =
      decodeUnitsFrom (offset + (encodeUnit unit).length) (unit :: units) rest := by
  rcases encodeUnit_cases unit with ⟨a, hbytes, hne, hlt, rfl⟩ | ⟨hbytes, rfl⟩ |
    ⟨a, b, hbytes, hlow, hhigh, hb, rfl⟩ | ⟨a, b, c, hbytes, hlow, hhigh, hb, hc, hform, rfl⟩
  · have hzero : (a == 0) = false := beq_eq_false_iff_ne.2 hne
    rw [hbytes, List.singleton_append, decodeUnitsFrom.eq_def]
    simp [hzero, hlt]
  · rw [hbytes, List.cons_append, decodeUnitsFrom.eq_def]
    simp
  · have hzero : (a == 0) = false := beq_eq_false_of_lt (UInt8.lt_of_lt_of_le (by decide) hlow)
    have hnull : (a == 0xC0) = false := beq_eq_false_of_lt (UInt8.lt_of_lt_of_le (by decide) hlow)
    have hmany : ¬a < 0x80 := not_lt_of_le hlow (by decide)
    rw [hbytes, List.cons_append, decodeUnitsFrom.eq_def]
    simp [hzero, hmany, hnull, hb, hlow, hhigh]
  · have hzero : (a == 0) = false := beq_eq_false_of_lt (UInt8.lt_of_lt_of_le (by decide) hlow)
    have hnull : (a == 0xC0) = false := beq_eq_false_of_lt (UInt8.lt_of_lt_of_le (by decide) hlow)
    have htwo : ¬a < 0xE0 := UInt8.not_lt.2 hlow
    have hoverlong : (a == 0xE0 && decide (b < 0xA0)) = false := by
      by_cases hfirst : a = 0xE0
      · rw [hfirst, beq_self_eq_true, Bool.true_and, decide_eq_false_iff_not]
        exact UInt8.not_lt.2 (hform hfirst)
      · rw [beq_eq_false_iff_ne.2 hfirst, Bool.false_and]
    have hmany : ¬a < 0x80 := not_lt_of_le hlow (by decide)
    rw [hbytes, List.cons_append, decodeUnitsFrom.eq_def]
    simp [hzero, hmany, hnull, hb, hc, hlow, hhigh, htwo, hoverlong]

theorem decodeUnitsFrom_flatMap (text units : List UInt16) (offset : Nat) :
    decodeUnitsFrom offset units (text.flatMap encodeUnit) = .ok (units.reverse ++ text) := by
  induction text generalizing offset units with
  | nil =>
    rw [List.append_nil]
    rfl
  | cons unit text ih =>
    rw [List.flatMap_cons, decodeUnitsFrom_encodeUnit, ih, List.reverse_cons, List.append_assoc,
      List.singleton_append]

/-! ### Reading standard UTF-8 -/

theorem decodeStandardFrom_encodeUnit (unit : UInt16) (units : List UInt16) (rest : List UInt8) :
    decodeStandardFrom units (encodeUnit unit ++ rest) = none ∨
      decodeStandardFrom units (encodeUnit unit ++ rest) =
        decodeStandardFrom (unit :: units) rest := by
  rcases encodeUnit_cases unit with ⟨a, hbytes, hne, hlt, rfl⟩ | ⟨hbytes, rfl⟩ |
    ⟨a, b, hbytes, hlow, hhigh, hb, rfl⟩ | ⟨a, b, c, hbytes, hlow, hhigh, hb, hc, hform, rfl⟩
  · right
    rw [hbytes, List.singleton_append, decodeStandardFrom.eq_def]
    simp [hlt]
  · left
    rw [hbytes]
    rcases rest with _ | ⟨c, _ | ⟨d, rest⟩⟩ <;> rfl
  · right
    have hmany : ¬a < 0x80 := not_lt_of_le hlow (by decide)
    rw [hbytes, List.cons_append, decodeStandardFrom.eq_def]
    simp [hmany, hlow, hhigh, hb]
  · have htwo : ¬a < 0xE0 := UInt8.not_lt.2 hlow
    have hmany : ¬a < 0x80 := not_lt_of_le hlow (by decide)
    rw [hbytes, List.cons_append, decodeStandardFrom.eq_def]
    by_cases hsecond : isSecondOfThree a b
    · right
      simp [hmany, hlow, hhigh, hc, htwo, hsecond]
    · left
      simp [hmany, hlow, hhigh, htwo, hsecond]

theorem decodeStandardFrom_flatMap (text units : List UInt16) :
    decodeStandardFrom units (text.flatMap encodeUnit) = none ∨
      decodeStandardFrom units (text.flatMap encodeUnit) = some (units.reverse ++ text) := by
  induction text generalizing units with
  | nil =>
    right
    rw [List.append_nil]
    rfl
  | cons unit text ih =>
    rw [List.flatMap_cons]
    rcases decodeStandardFrom_encodeUnit unit units (text.flatMap encodeUnit) with hnone | hunit
    · exact .inl hnone
    · rw [hunit, List.append_cons, ← List.reverse_cons]
      exact ih (unit :: units)

/-- A text is read back from the bytes it is written as. -/
theorem decode_encode (text : Text) : decode (encode text) = .ok text := by
  unfold decode decodeStandard? encode
  rcases decodeStandardFrom_flatMap text.units [] with hnone | hsome
  · rw [hnone, decodeUnitsFrom_flatMap]
    rfl
  · rw [hsome]
    rfl

/-! ### Bytes are written back -/

private theorem toNat_of_isContinuation {byte : UInt8} (hbyte : isContinuation byte) :
    0x80 ≤ byte.toNat ∧ byte.toNat < 0xC0 := by
  simp only [isContinuation, Bool.and_eq_true, decide_eq_true_eq, UInt8.le_iff_toNat_le,
    UInt8.lt_iff_toNat_lt] at hbyte
  exact hbyte

private theorem ofNat_eq {n : Nat} (byte : UInt8) (hbyte : n = byte.toNat) :
    UInt8.ofNat n = byte := by
  rw [hbyte, UInt8.ofNat_toNat]

theorem encodeUnit_of_one {a : UInt8} (hne : a ≠ 0) (hlt : a < 0x80) :
    encodeUnit a.toUInt16 = [a] := by
  have hpos : 0 < a.toNat := Nat.pos_of_ne_zero fun hzero => hne (UInt8.toNat_inj.1 hzero)
  have hlow : a.toNat < 0x80 := UInt8.lt_iff_toNat_lt.1 hlt
  unfold encodeUnit
  dsimp only
  rw [UInt8.toNat_toUInt16, if_pos ⟨hpos, hlow⟩, UInt8.ofNat_toNat]

theorem encodeUnit_of_two {a b : UInt8} (hlow : 0xC2 ≤ a) (hhigh : a < 0xE0)
    (hb : isContinuation b) : encodeUnit (unitOfTwo a b) = [a, b] := by
  have hfirst : 194 ≤ a.toNat := UInt8.le_iff_toNat_le.1 hlow
  have hlast : a.toNat < 224 := UInt8.lt_iff_toNat_lt.1 hhigh
  obtain ⟨hbLow, hbHigh⟩ := toNat_of_isContinuation hb
  have hunit : (unitOfTwo a b).toNat = a.toNat % 32 * 64 + b.toNat % 64 :=
    UInt16.toNat_ofNat_of_lt' (show _ < 65536 by unfold bits; omega)
  unfold encodeUnit
  dsimp only
  rw [hunit, if_neg (by omega), if_pos (by omega), ofNat_eq a (by omega),
    ofNat_eq b (by omega)]

theorem encodeUnit_of_three {a b c : UInt8} (hlow : 0xE0 ≤ a) (hhigh : a < 0xF0)
    (hb : isContinuation b) (hc : isContinuation c) (hform : a = 0xE0 → 0xA0 ≤ b) :
    encodeUnit (unitOfThree a b c) = [a, b, c] := by
  have hfirst : 224 ≤ a.toNat := UInt8.le_iff_toNat_le.1 hlow
  have hlast : a.toNat < 240 := UInt8.lt_iff_toNat_lt.1 hhigh
  obtain ⟨hbLow, hbHigh⟩ := toNat_of_isContinuation hb
  obtain ⟨hcLow, hcHigh⟩ := toNat_of_isContinuation hc
  have hlong : a.toNat = 224 → 160 ≤ b.toNat := fun ha =>
    UInt8.le_iff_toNat_le.1 (hform (UInt8.toNat_inj.1 ha))
  have hunit : (unitOfThree a b c).toNat =
      a.toNat % 16 * 4096 + b.toNat % 64 * 64 + c.toNat % 64 :=
    UInt16.toNat_ofNat_of_lt' (show _ < 65536 by unfold bits; omega)
  unfold encodeUnit
  dsimp only
  rw [hunit, if_neg (by omega), if_neg (by omega), ofNat_eq a (by omega),
    ofNat_eq b (by omega), ofNat_eq c (by omega)]

/-- The units that were read after the given ones, which stand in reverse, are written as the
bytes. -/
private def WrittenAs (units result : List UInt16) (bytes : List UInt8) : Prop :=
  ∃ text, result = units.reverse ++ text ∧ text.flatMap encodeUnit = bytes

private theorem WrittenAs.nil (units : List UInt16) : WrittenAs units units.reverse [] :=
  ⟨[], (List.append_nil _).symm, rfl⟩

private theorem WrittenAs.cons {unit : UInt16} {units result : List UInt16}
    {front bytes : List UInt8} (hunit : encodeUnit unit = front)
    (hrest : WrittenAs (unit :: units) result bytes) :
    WrittenAs units result (front ++ bytes) := by
  obtain ⟨text, rfl, rfl⟩ := hrest
  refine ⟨unit :: text, ?_, ?_⟩
  · rw [List.reverse_cons, List.append_assoc, List.singleton_append]
  · rw [List.flatMap_cons, hunit]

private theorem writtenAs_of_decodeUnitsFrom {offset : Nat} {units result : List UInt16}
    {bytes : List UInt8} (hdecode : decodeUnitsFrom offset units bytes = .ok result) :
    WrittenAs units result bytes := by
  -- One case for each form of a unit; in all others reading fails.
  fun_induction decodeUnitsFrom offset units bytes with
  | case1 offset units =>
    cases hdecode
    exact .nil units
  | case3 offset units a rest hne hlt ih =>
    exact .cons (encodeUnit_of_one (by simpa using hne) hlt) (ih hdecode)
  | case5 offset units a _ _ b rest ha hb ih =>
    rw [eq_of_beq ha, eq_of_beq hb]
    have hzero : encodeUnit 0 = [0xC0, 0x80] := rfl
    exact .cons hzero (ih hdecode)
  | case8 offset units a _ _ b rest _ hb hfirst ih =>
    simp only [Bool.and_eq_true, decide_eq_true_eq] at hfirst
    exact .cons (encodeUnit_of_two hfirst.1 hfirst.2 (by simpa using hb)) (ih hdecode)
  | case12 offset units a _ _ b _ hb _ hfirst c rest hc hlong ih =>
    simp only [Bool.and_eq_true, decide_eq_true_eq] at hfirst
    have hform : a = 0xE0 → 0xA0 ≤ b := by
      rintro rfl
      simpa using hlong
    exact .cons
      (encodeUnit_of_three hfirst.1 hfirst.2 (by simpa using hb) (by simpa using hc) hform)
      (ih hdecode)
  | _ => cases hdecode

private theorem writtenAs_of_decodeStandardFrom {units result : List UInt16} {bytes : List UInt8}
    (hdecode : decodeStandardFrom units bytes = some result)
    (hplain : ∀ byte ∈ bytes, byte ≠ 0 ∧ byte < 0xF0) : WrittenAs units result bytes := by
  fun_induction decodeStandardFrom units bytes with
  | case1 units =>
    cases hdecode
    exact .nil units
  | case2 units a rest hlt ih =>
    obtain ⟨ha, hrest⟩ := List.forall_mem_cons.1 hplain
    exact .cons (encodeUnit_of_one ha.1 hlt) (ih hdecode hrest)
  | case4 units a _ b rest hfirst hb ih =>
    simp only [Bool.and_eq_true, decide_eq_true_eq] at hfirst
    have hrest := (List.forall_mem_cons.1 (List.forall_mem_cons.1 hplain).2).2
    exact .cons (encodeUnit_of_two hfirst.1 hfirst.2 hb) (ih hdecode hrest)
  | case7 units a _ b _ c rest hfirst hothers ih =>
    simp only [Bool.and_eq_true, decide_eq_true_eq] at hfirst hothers
    have hrest := (List.forall_mem_cons.1
      (List.forall_mem_cons.1 (List.forall_mem_cons.1 hplain).2).2).2
    have hsecond := hothers.1
    simp only [isSecondOfThree, Bool.and_eq_true, Bool.not_eq_true'] at hsecond
    have hform : a = 0xE0 → 0xA0 ≤ b := by
      rintro rfl
      simpa using hsecond.1.2
    exact .cons (encodeUnit_of_three hfirst.1 hfirst.2 hsecond.1.1 hothers.2 hform)
      (ih hdecode hrest)
  | case10 units a _ b _ c _ d rest hall point ih =>
    -- A first byte of four is too large.
    obtain ⟨ha, -⟩ := List.forall_mem_cons.1 hplain
    simp only [Bool.and_eq_true, decide_eq_true_eq] at hall
    exact absurd ha.2 (UInt8.not_lt.2 hall.1.1.1.1)
  | _ => cases hdecode

/-- The bytes are not standard UTF-8 in which a zero or a sequence of four bytes occurs. Those are
the bytes that are read as a text which is written differently. -/
def IsPlain (bytes : List UInt8) : Prop :=
  (decodeStandard? bytes).isSome → ∀ byte ∈ bytes, byte ≠ 0 ∧ byte < 0xF0

instance : DecidablePred IsPlain :=
  fun bytes => inferInstanceAs (Decidable (_ → ∀ byte ∈ bytes, byte ≠ 0 ∧ byte < 0xF0))

theorem encode_of_decode {bytes : List UInt8} {text : Text} (hdecode : decode bytes = .ok text)
    (hplain : IsPlain bytes) : encode text = bytes := by
  unfold IsPlain decodeStandard? at hplain
  unfold decode decodeStandard? at hdecode
  cases hstandard : decodeStandardFrom [] bytes with
  | some units =>
    rw [hstandard] at hdecode hplain
    cases hdecode
    obtain ⟨found, rfl, hfound⟩ := writtenAs_of_decodeStandardFrom hstandard (hplain rfl)
    exact hfound
  | none =>
    rw [hstandard] at hdecode
    cases hunits : decodeUnitsFrom 0 [] bytes with
    | error malformed =>
      rw [hunits] at hdecode
      cases hdecode
    | ok units =>
      rw [hunits] at hdecode
      cases hdecode
      obtain ⟨found, rfl, hfound⟩ := writtenAs_of_decodeUnitsFrom hunits
      exact hfound

/-! ### How long a text gets -/

/-- How many bytes a text that was read from the given ones is written as. Standard UTF-8 gets
longer: a zero takes two bytes, and what was one sequence of four bytes takes six. -/
def rewrittenSize (bytes : List UInt8) : Nat :=
  if (decodeStandard? bytes).isSome then
    bytes.length + bytes.count 0 + 2 * bytes.countP (0xF0 ≤ ·)
  else
    bytes.length

theorem length_encodeUnit_of_surrogate {n : Nat} (hlow : 0xD800 ≤ n) (hhigh : n < 0xE000) :
    (encodeUnit (UInt16.ofNat n)).length = 3 := by
  have hunit : (UInt16.ofNat n).toNat = n := UInt16.toNat_ofNat_of_lt' (show n < 65536 by omega)
  unfold encodeUnit
  dsimp only
  rw [hunit, if_neg (by omega), if_neg (by omega)]
  rfl

private theorem length_unitsOfPoint {a b c d : UInt8} (hfirst : 0xF0 ≤ a) (hlast : a < 0xF5)
    (hsecond : isSecondOfFour a b) :
    ((unitsOfPoint (a.toNat % 8 * 262144 + bits b * 4096 + bits c * 64 + bits d)).flatMap
      encodeUnit).length = 6 := by
  have ha : 240 ≤ a.toNat := UInt8.le_iff_toNat_le.1 hfirst
  have ha' : a.toNat < 245 := UInt8.lt_iff_toNat_lt.1 hlast
  simp only [isSecondOfFour, Bool.and_eq_true, Bool.not_eq_true'] at hsecond
  obtain ⟨hbLow, hbHigh⟩ := toNat_of_isContinuation hsecond.1.1
  have hlong : a.toNat = 240 → 144 ≤ b.toNat := by
    intro hle
    have hbyte : a = 0xF0 := UInt8.toNat_inj.1 hle
    have hb : ¬b < 0x90 := by simpa [hbyte] using hsecond.1.2
    exact UInt8.le_iff_toNat_le.1 (UInt8.not_lt.1 hb)
  have htop : a.toNat = 244 → b.toNat < 144 := by
    intro hle
    have hbyte : a = 0xF4 := UInt8.toNat_inj.1 hle
    have hb : ¬0x90 ≤ b := by simpa [hbyte] using hsecond.2
    exact UInt8.lt_iff_toNat_lt.1 (UInt8.not_le.1 hb)
  unfold unitsOfPoint bits
  rw [if_neg (by omega), List.flatMap_cons, List.flatMap_cons, List.flatMap_nil, List.length_append,
    List.append_nil, length_encodeUnit_of_surrogate (by omega) (by omega),
    length_encodeUnit_of_surrogate (by omega) (by omega)]

private theorem count_cons_of_pos {a : UInt8} {bytes : List UInt8} (hpos : 0 < a.toNat) :
    (a :: bytes).count 0 = bytes.count 0 := by
  refine List.count_cons_of_ne fun hzero => ?_
  rw [hzero] at hpos
  exact Nat.lt_irrefl 0 hpos

private theorem countP_cons_of_lt {a : UInt8} {bytes : List UInt8} (hlt : a.toNat < 0xF0) :
    (a :: bytes).countP (0xF0 ≤ ·) = bytes.countP (0xF0 ≤ ·) := by
  refine List.countP_cons_of_neg ?_
  rw [decide_eq_true_eq, UInt8.le_iff_toNat_le]
  exact Nat.not_le_of_lt hlt

/-- What standard UTF-8 is written as, after the units read before it, which stand in reverse. -/
private theorem length_of_decodeStandardFrom {units result : List UInt16} {bytes : List UInt8}
    (hdecode : decodeStandardFrom units bytes = some result) :
    ∃ text, result = units.reverse ++ text ∧ (text.flatMap encodeUnit).length =
      bytes.length + bytes.count 0 + 2 * bytes.countP (0xF0 ≤ ·) := by
  fun_induction decodeStandardFrom units bytes with
  | case1 units =>
    cases hdecode
    exact ⟨[], (List.append_nil _).symm, rfl⟩
  | case2 units a rest hlt ih =>
    obtain ⟨text, rfl, hlength⟩ := ih hdecode
    have ha : a.toNat < 128 := UInt8.lt_iff_toNat_lt.1 hlt
    refine ⟨a.toUInt16 :: text, by simp, ?_⟩
    rw [List.flatMap_cons, List.length_append, hlength, countP_cons_of_lt (by omega),
      List.length_cons]
    by_cases hzero : a = 0
    · subst hzero
      have htwo : (encodeUnit (0 : UInt8).toUInt16).length = 2 := rfl
      rw [htwo, List.count_cons_self]
      omega
    · have hpos : 0 < a.toNat := Nat.pos_of_ne_zero fun h => hzero (UInt8.toNat_inj.1 h)
      rw [encodeUnit_of_one hzero hlt, count_cons_of_pos hpos, List.length_singleton]
      omega
  | case4 units a _ b rest hfirst hb ih =>
    obtain ⟨text, rfl, hlength⟩ := ih hdecode
    simp only [Bool.and_eq_true, decide_eq_true_eq] at hfirst
    have ha : 194 ≤ a.toNat := UInt8.le_iff_toNat_le.1 hfirst.1
    have ha' : a.toNat < 224 := UInt8.lt_iff_toNat_lt.1 hfirst.2
    obtain ⟨hbLow, hbHigh⟩ := toNat_of_isContinuation hb
    refine ⟨unitOfTwo a b :: text, by simp, ?_⟩
    rw [List.flatMap_cons, List.length_append, hlength, encodeUnit_of_two hfirst.1 hfirst.2 hb,
      count_cons_of_pos (by omega), count_cons_of_pos (by omega), countP_cons_of_lt (by omega),
      countP_cons_of_lt (by omega)]
    simp only [List.length_cons, List.length_nil]
    omega
  | case7 units a _ b _ c rest hfirst hothers ih =>
    obtain ⟨text, rfl, hlength⟩ := ih hdecode
    simp only [Bool.and_eq_true, decide_eq_true_eq] at hfirst hothers
    have hsecond := hothers.1
    simp only [isSecondOfThree, Bool.and_eq_true, Bool.not_eq_true'] at hsecond
    have hform : a = 0xE0 → 0xA0 ≤ b := by
      rintro rfl
      simpa using hsecond.1.2
    have ha : 224 ≤ a.toNat := UInt8.le_iff_toNat_le.1 hfirst.1
    have ha' : a.toNat < 240 := UInt8.lt_iff_toNat_lt.1 hfirst.2
    obtain ⟨hbLow, hbHigh⟩ := toNat_of_isContinuation hsecond.1.1
    obtain ⟨hcLow, hcHigh⟩ := toNat_of_isContinuation hothers.2
    refine ⟨unitOfThree a b c :: text, by simp, ?_⟩
    rw [List.flatMap_cons, List.length_append, hlength,
      encodeUnit_of_three hfirst.1 hfirst.2 hsecond.1.1 hothers.2 hform,
      count_cons_of_pos (by omega), count_cons_of_pos (by omega), count_cons_of_pos (by omega),
      countP_cons_of_lt (by omega), countP_cons_of_lt (by omega), countP_cons_of_lt (by omega)]
    simp only [List.length_cons, List.length_nil]
    omega
  | case10 units a _ b _ c _ d rest hall point ih =>
    obtain ⟨text, rfl, hlength⟩ := ih hdecode
    simp only [Bool.and_eq_true, decide_eq_true_eq] at hall
    obtain ⟨⟨⟨⟨hlow, hhigh⟩, hsecond⟩, hc⟩, hd⟩ := hall
    have hcontinued := hsecond
    simp only [isSecondOfFour, Bool.and_eq_true] at hcontinued
    have ha : 240 ≤ a.toNat := UInt8.le_iff_toNat_le.1 hlow
    obtain ⟨hbLow, hbHigh⟩ := toNat_of_isContinuation hcontinued.1.1
    obtain ⟨hcLow, hcHigh⟩ := toNat_of_isContinuation hc
    obtain ⟨hdLow, hdHigh⟩ := toNat_of_isContinuation hd
    refine ⟨unitsOfPoint point ++ text, by simp, ?_⟩
    rw [List.flatMap_append, List.length_append, hlength, length_unitsOfPoint hlow hhigh hsecond,
      count_cons_of_pos (by omega), count_cons_of_pos (by omega), count_cons_of_pos (by omega),
      count_cons_of_pos (by omega), List.countP_cons_of_pos (by simpa using hlow),
      countP_cons_of_lt (by omega), countP_cons_of_lt (by omega), countP_cons_of_lt (by omega)]
    simp only [List.length_cons]
    omega
  | _ => cases hdecode

theorem length_encode_of_decode {bytes : List UInt8} {text : Text}
    (hdecode : decode bytes = .ok text) :
    (encode text).length = rewrittenSize bytes := by
  unfold rewrittenSize
  split
  · rename_i hstandard
    obtain ⟨found, hfound⟩ := Option.isSome_iff_exists.1 hstandard
    rw [decode, hfound] at hdecode
    cases hdecode
    obtain ⟨units, hunits, rfl⟩ := Option.map_eq_some_iff.1 hfound
    obtain ⟨text, rfl, hlength⟩ := length_of_decodeStandardFrom hunits
    exact hlength
  · rename_i hother
    rw [encode_of_decode hdecode fun hstandard => absurd hstandard hother]

end JvmClass.Text.ModifiedUtf8
