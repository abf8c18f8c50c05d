/-
When `bitarray_shift` is a logical shift of the whole array.

It shifts in place, byte by byte, and keeps of each byte only what its mask
lets through: `rightLoop_byte` and `leftLoop_byte` say which byte each loop
leaves, `rightByte_bit` and `leftByte_bit` which old bits are in it. What the
masks, the bound of the oversize shortcut, the bytes read past either end and
the place of the final `memset` lose or bring in is `LeftHarmless` and
`RightHarmless`: the result is the shift exactly when all of that was 0.

Each loop looks at the neighbour of the last byte it comes to, which is not
one of the array's (`bitarrayShift_inside_iff`).
-/
import SugarNSpice.BitArray

namespace SugarNSpice.BitArray

/-! ## Bytes -/

/-- The byte the right shift's loop makes of `b`, with `next` on its left. -/
def rightByte (r : Nat) (b next : BitVec 8) : BitVec 8 :=
  b >>> r &&& bitmask r ||| (next &&& bitmask r) <<< (8 - r)

/-- The byte the left shift's loop makes of `b`, with `prev` on its right. -/
def leftByte (r : Nat) (b prev : BitVec 8) : BitVec 8 :=
  b <<< r &&& bitmask r <<< (8 - r) ||| (prev &&& bitmask r <<< (8 - r)) >>> (8 - r)

theorem rightTurn_byte (r i : Nat) (m : Mem) (p : Int) :
    (rightTurn r i m).byte p = if p = i then rightByte r (m.byte i) (m.byte (i + 1)) else m.byte p := by
  simp only [rightTurn, Mem.read, Mem.write, rightByte, Function.update_apply]
  split <;> simp_all

theorem leftTurn_byte (r i : Nat) (m : Mem) (p : Int) :
    (leftTurn r i m).byte p = if p = i then leftByte r (m.byte i) (m.byte (i - 1)) else m.byte p := by
  simp only [leftTurn, Mem.read, Mem.write, leftByte, Function.update_apply]
  split <;> simp_all

/-- Going up, each byte still finds its left neighbour unshifted. -/
theorem rightLoop_byte (r n i : Nat) (m : Mem) (p : Int) :
    (rightLoop r n i m).byte p =
      if i ≤ p ∧ p < i + n then rightByte r (m.byte p) (m.byte (p + 1)) else m.byte p := by
  induction n generalizing i m with
  | zero => rw [rightLoop, if_neg (by omega)]
  | succ n ih =>
    rw [rightLoop, ih]
    simp only [rightTurn_byte]
    rcases Int.lt_trichotomy p i with h | rfl | h
    · rw [if_neg (by omega), if_neg (by omega), if_neg (by omega)]
    · rw [if_neg (by omega), if_pos rfl, if_pos (by omega)]
    · by_cases hp : p < i + (n + 1 : Nat)
      · rw [if_pos (by omega), if_neg (by omega), if_neg (by omega), if_pos (by omega)]
      · rw [if_neg (by omega), if_neg (by omega), if_neg (by omega)]

/-- Going down, each byte still finds its right neighbour unshifted. -/
theorem leftLoop_byte (r n : Nat) (m : Mem) (p : Int) :
    (leftLoop r n m).byte p =
      if 0 ≤ p ∧ p < n then leftByte r (m.byte p) (m.byte (p - 1)) else m.byte p := by
  induction n generalizing m with
  | zero => rw [leftLoop, if_neg (by omega)]
  | succ n ih =>
    rw [leftLoop, ih]
    simp only [leftTurn_byte]
    by_cases h : 0 ≤ p ∧ p < n
    · rw [if_pos h, if_neg (by omega), if_neg (by omega), if_pos (by omega)]
    · rw [if_neg h]
      by_cases hp : p = n
      · rw [if_pos hp, if_pos (by omega), hp]
      · rw [if_neg hp, if_neg (by omega)]

/-! ## Bits -/

theorem bitmask_bit : ∀ r < 8, ∀ k < 8, (bitmask r).getLsbD k = decide (k < r) := by decide

theorem rightByte_bit {r k : Nat} (hr : r < 8) (hk : k < 8) (b next : BitVec 8) :
    (rightByte r b next).getLsbD k =
      ((decide (k < r) && b.getLsbD (k + r)) || (decide (8 - r ≤ k) && next.getLsbD (k + r - 8))) := by
  simp only [rightByte, BitVec.getLsbD_or, BitVec.getLsbD_and, BitVec.getLsbD_ushiftRight, BitVec.getLsbD_shiftLeft,
    bitmask_bit r hr k hk, hk, decide_true, Bool.true_and]
  by_cases h : 8 - r ≤ k
  · have hlow : k - (8 - r) = k + r - 8 := by omega
    have hin : k + r - 8 < r := by omega
    rw [bitmask_bit r hr _ (by omega), hlow, Nat.add_comm r k]
    simp [h, hin, Nat.not_lt.2 h, Bool.and_comm]
  · simp [h, Nat.lt_of_not_le h, Nat.add_comm r k, Bool.and_comm]

theorem leftByte_bit {r k : Nat} (hr : r < 8) (hk : k < 8) (b prev : BitVec 8) :
    (leftByte r b prev).getLsbD k =
      ((decide (r ≤ k ∧ 8 - r ≤ k) && b.getLsbD (k - r)) || (decide (k < r) && prev.getLsbD (k + 8 - r))) := by
  have hm : ∀ j, (bitmask r <<< (8 - r)).getLsbD j = decide (8 - r ≤ j ∧ j < 8) := by
    intro j
    rw [BitVec.getLsbD_shiftLeft]
    by_cases hj : j < 8
    · by_cases hrj : 8 - r ≤ j
      · have hlow : j - (8 - r) < r := by omega
        rw [bitmask_bit r hr _ (by omega)]
        simp [hj, hrj, hlow]
      · simp [hj, hrj, Nat.lt_of_not_le hrj]
    · simp [hj]
  simp only [leftByte, BitVec.getLsbD_or, BitVec.getLsbD_and, BitVec.getLsbD_ushiftRight, BitVec.getLsbD_shiftLeft, hm,
    hk, decide_true, Bool.true_and]
  have hprev : 8 - r + k = k + 8 - r := by omega
  rw [hprev]
  by_cases h1 : r ≤ k
  · have hp : ¬ k + 8 - r < 8 := by omega
    by_cases h2 : 8 - r ≤ k
    · simp [h1, h2, hp, Nat.not_lt.2 h1]
    · simp [h1, h2, hp, Nat.not_lt.2 h1]
  · have hp : 8 - r ≤ k + 8 - r ∧ k + 8 - r < 8 := by omega
    simp [h1, hp, Nat.lt_of_not_le h1]

/-! ## The left shift -/

/-- `m'` is `m` shifted left by `bits`. -/
def LeftShifted (nrBits bits : Nat) (m m' : Mem) : Prop :=
  ∀ j < nrBits, bit m' j = if bits ≤ j then bit m (j - bits) else false

/-- What a left shift loses or brings in is 0: with `bits` at least the number
of bytes, every bit; else the bits below `8 - 2 * (bits % 8)` of each byte,
which the mask drops, and the top bits of the byte before the array. -/
def LeftHarmless (nrBits bits : Nat) (m : Mem) : Prop :=
  if bitIdx nrBits ≤ bits then ∀ j, j + bits < nrBits → bit m j = false
  else
    (∀ i < bitIdx nrBits - bitIdx bits, ∀ k < 8 - 2 * bitPos bits, bit m (8 * i + k) = false) ∧
      ∀ k < 8, 8 - bitPos bits ≤ k → (m.byte (-1)).getLsbD k = false

theorem bit_eq {p k : Nat} (hk : k < 8) (m : Mem) : bit m (8 * p + k) = (m.byte p).getLsbD k := by
  have hdiv : (8 * p + k) / 8 = p := by omega
  have hmod : (8 * p + k) % 8 = k := by omega
  rw [bit, bitIdx, bitPos, hdiv, hmod]

theorem bits_eq (bits : Nat) : bits = 8 * bitIdx bits + bitPos bits := (Nat.div_add_mod bits 8).symm

theorem bitPos_lt (bits : Nat) : bitPos bits < 8 := Nat.mod_lt _ (by decide)

theorem exists_byte {nrBits j : Nat} (hn : nrBits % 8 = 0) (hj : j < nrBits) :
    ∃ p k, j = 8 * p + k ∧ p < bitIdx nrBits ∧ k < 8 := by
  refine ⟨j / 8, j % 8, (Nat.div_add_mod j 8).symm, ?_, Nat.mod_lt _ (by decide)⟩
  unfold bitIdx
  omega

theorem eq_mul_bitIdx {nrBits : Nat} (hn : nrBits % 8 = 0) : nrBits = 8 * bitIdx nrBits := by
  unfold bitIdx
  omega

theorem oversize_bit {nrBits bits : Nat} (hb : bitIdx nrBits ≤ bits) (hn : nrBits % 8 = 0) (dir : Int) (m : Mem)
    {j : Nat} (hj : j < nrBits) : bit (bitarrayShift nrBits dir bits m) j = false := by
  simp only [bitarrayShift, hb, if_true, bit, Mem.clear]
  rw [if_pos (by unfold bitIdx; omega)]
  exact BitVec.getLsbD_zero

theorem leftShift_bit {nrBits bits p k : Nat} (hb : bits < bitIdx nrBits) (hp : p < bitIdx nrBits) (hk : k < 8)
    (m : Mem) :
    bit (bitarrayShift nrBits 0 bits m) (8 * p + k) =
      if p < bitIdx bits then false
      else ((decide (bitPos bits ≤ k ∧ 8 - bitPos bits ≤ k) &&
          (m.byte (p - bitIdx bits)).getLsbD (k - bitPos bits)) ||
        (decide (k < bitPos bits) && (m.byte (p - bitIdx bits - 1)).getLsbD (k + 8 - bitPos bits))) := by
  have hr := bitPos_lt bits
  have hw : ¬ bitIdx bits > bitIdx nrBits := by unfold bitIdx at *; omega
  have hdir : ¬ (0 : Int) = 1 := by decide
  rw [bit_eq hk]
  simp only [bitarrayShift, hw, if_false, Nat.not_le.2 hb, hdir, Mem.clear, Mem.move]
  by_cases hlt : p < bitIdx bits
  · rw [if_pos (by omega), if_pos hlt]
    exact BitVec.getLsbD_zero
  · rw [if_neg (by omega), if_pos (by omega), if_neg hlt, leftLoop_byte, if_pos (by omega), leftByte_bit hr hk]
    simp

theorem leftShifted_iff_of_oversize {nrBits bits : Nat} (hn : nrBits % 8 = 0) (hbig : bitIdx nrBits ≤ bits) (m : Mem) :
    LeftShifted nrBits bits m (bitarrayShift nrBits 0 bits m) ↔ ∀ j, j + bits < nrBits → bit m j = false := by
  constructor
  · intro h j hj
    have hj' := h (j + bits) hj
    rw [oversize_bit hbig hn 0 m hj, if_pos (by omega), Nat.add_sub_cancel] at hj'
    exact hj'.symm
  · intro h j hj
    rw [oversize_bit hbig hn 0 m hj]
    split
    · exact (h (j - bits) (by omega)).symm
    · rfl

theorem leftHarmless_of_shifted {nrBits bits : Nat} {m : Mem} (hn : nrBits % 8 = 0) (hb : bits < bitIdx nrBits)
    (h : LeftShifted nrBits bits m (bitarrayShift nrBits 0 bits m)) :
    (∀ i < bitIdx nrBits - bitIdx bits, ∀ k < 8 - 2 * bitPos bits, bit m (8 * i + k) = false) ∧
      ∀ k < 8, 8 - bitPos bits ≤ k → (m.byte (-1)).getLsbD k = false := by
  have hW := eq_mul_bitIdx hn
  have hbits := bits_eq bits
  have hr := bitPos_lt bits
  refine ⟨fun i hi k hk => ?_, fun k hk hrk => ?_⟩
  -- The bits the mask drops, and those that come in from the byte before.
  · have hj := h (8 * (i + bitIdx bits) + (k + bitPos bits)) (by omega)
    have hfrom : 8 * (i + bitIdx bits) + (k + bitPos bits) - bits = 8 * i + k := by omega
    have hmask : ¬ 8 - bitPos bits ≤ k + bitPos bits := by omega
    rw [leftShift_bit hb (by omega) (by omega), if_neg (by omega), if_pos (by omega), hfrom] at hj
    rw [← hj]
    simp [hmask]
  · have hj := h (8 * bitIdx bits + (k + bitPos bits - 8)) (by omega)
    have hlow : k + bitPos bits - 8 < bitPos bits := by omega
    have hfrom : k + bitPos bits - 8 + 8 - bitPos bits = k := by omega
    rw [leftShift_bit hb (by omega) (by omega), if_neg (by omega), if_neg (by omega)] at hj
    simpa [hlow, Nat.not_le.2 hlow, hfrom] using hj

theorem leftShifted_of_harmless {nrBits bits : Nat} {m : Mem} (hn : nrBits % 8 = 0) (hb : bits < bitIdx nrBits)
    (hlost : ∀ i < bitIdx nrBits - bitIdx bits, ∀ k < 8 - 2 * bitPos bits, bit m (8 * i + k) = false)
    (hhead : ∀ k < 8, 8 - bitPos bits ≤ k → (m.byte (-1)).getLsbD k = false) :
    LeftShifted nrBits bits m (bitarrayShift nrBits 0 bits m) := by
  have hbits := bits_eq bits
  have hr := bitPos_lt bits
  intro j hj
  obtain ⟨p, k, rfl, hp, hk⟩ := exists_byte hn hj
  rw [leftShift_bit hb hp hk]
  by_cases hzero : p < bitIdx bits
  · rw [if_pos hzero, if_neg (by omega)]
  obtain ⟨i, rfl⟩ : ∃ i, p = bitIdx bits + i := ⟨p - bitIdx bits, by omega⟩
  have hi : ((bitIdx bits + i : Nat) : Int) - bitIdx bits = i := by omega
  rw [if_neg hzero, hi]
  rcases Nat.lt_or_ge k (bitPos bits) with hkr | hkr
  · -- The low bits of a byte come from the top of the one before.
    cases i with
    | zero =>
      rw [if_neg (by omega)]
      simpa [hkr, Nat.not_le.2 hkr] using hhead (k + 8 - bitPos bits) (by omega) (by omega)
    | succ i =>
      have hfrom : 8 * (bitIdx bits + (i + 1)) + k - bits = 8 * i + (k + 8 - bitPos bits) := by omega
      rw [if_pos (by omega), hfrom, bit_eq (by omega)]
      simp [hkr, Nat.not_le.2 hkr]
  · have hfrom : 8 * (bitIdx bits + i) + k - bits = 8 * i + (k - bitPos bits) := by omega
    rw [if_pos (by omega), hfrom]
    by_cases h8 : 8 - bitPos bits ≤ k
    · rw [bit_eq (by omega)]
      simp [hkr, h8, Nat.not_lt.2 hkr]
    · rw [hlost i (by omega) (k - bitPos bits) (by omega)]
      simp [h8, Nat.not_lt.2 hkr]

theorem leftShifted_iff {nrBits bits : Nat} (hn : nrBits % 8 = 0) (m : Mem) :
    LeftShifted nrBits bits m (bitarrayShift nrBits 0 bits m) ↔ LeftHarmless nrBits bits m := by
  unfold LeftHarmless
  by_cases hbig : bitIdx nrBits ≤ bits
  · rw [if_pos hbig]
    exact leftShifted_iff_of_oversize hn hbig m
  · rw [if_neg hbig]
    have hb := Nat.lt_of_not_le hbig
    exact ⟨leftHarmless_of_shifted hn hb, fun h => leftShifted_of_harmless hn hb h.1 h.2⟩

/-! ## The right shift -/

/-- `m'` is `m` shifted right by `bits`. -/
def RightShifted (nrBits bits : Nat) (m m' : Mem) : Prop :=
  ∀ j < nrBits, bit m' j = if j + bits < nrBits then bit m (j + bits) else false

/-- What a right shift loses or brings in is 0: with `bits` at least the
number of bytes, every bit it should keep; else the bits from
`2 * (bits % 8)` on of each byte it keeps, which the mask drops, the low bits
of the byte after the array, and, when whole bytes move, what is left of the
last byte, which the final `memset` clears one place too low. -/
def RightHarmless (nrBits bits : Nat) (m : Mem) : Prop :=
  if bitIdx nrBits ≤ bits then ∀ j < nrBits, bits ≤ j → bit m j = false
  else
    (∀ i < bitIdx nrBits, bitIdx bits ≤ i → ∀ k < 8, 2 * bitPos bits ≤ k → bit m (8 * i + k) = false) ∧
      (∀ k < bitPos bits, (m.byte (bitIdx nrBits)).getLsbD k = false) ∧
      (0 < bitIdx bits → ∀ k < 8, bitPos bits ≤ k → bit m (8 * (bitIdx nrBits - 1) + k) = false)

/-- The bits of a right shift by fewer bits than there are bytes: the last
byte is the loop's own, since nothing moves into it and the `memset` stops
short of it. -/
theorem rightShift_bit {nrBits bits p k : Nat} (hb : bits < bitIdx nrBits) (hp : p < bitIdx nrBits) (hk : k < 8)
    (m : Mem) :
    bit (bitarrayShift nrBits 1 bits m) (8 * p + k) =
      if bitIdx nrBits - 1 - bitIdx bits ≤ p ∧ p < bitIdx nrBits - 1 then false
      else
        let q := if p < bitIdx nrBits - bitIdx bits then p + bitIdx bits else p
        ((decide (k < bitPos bits) && (m.byte q).getLsbD (k + bitPos bits)) ||
          (decide (8 - bitPos bits ≤ k) && (m.byte (q + 1)).getLsbD (k + bitPos bits - 8))) := by
  have hr := bitPos_lt bits
  have hw : ¬ bitIdx bits > bitIdx nrBits := by unfold bitIdx at *; omega
  have hsw : 8 * bitIdx bits ≤ bits := by unfold bitIdx; omega
  rw [bit_eq hk]
  simp only [bitarrayShift, hw, if_false, Nat.not_le.2 hb, if_true, Mem.clear, Mem.move]
  by_cases hclear : bitIdx nrBits - 1 - bitIdx bits ≤ p ∧ p < bitIdx nrBits - 1
  · rw [if_pos (by omega), if_pos hclear]
    exact BitVec.getLsbD_zero
  · rw [if_neg (by omega), if_neg hclear]
    by_cases hq : p < bitIdx nrBits - bitIdx bits
    · rw [if_pos (by omega), if_pos hq, rightLoop_byte, if_pos (by omega), rightByte_bit hr hk]
      simp
    · rw [if_neg (by omega), if_neg hq, rightLoop_byte, if_pos (by omega), rightByte_bit hr hk]

theorem rightShifted_iff_of_oversize {nrBits bits : Nat} (hn : nrBits % 8 = 0) (hbig : bitIdx nrBits ≤ bits) (m : Mem) :
    RightShifted nrBits bits m (bitarrayShift nrBits 1 bits m) ↔ ∀ j < nrBits, bits ≤ j → bit m j = false := by
  constructor
  · intro h j hj hb
    have hj' := h (j - bits) (by omega)
    rw [oversize_bit hbig hn 1 m (by omega), if_pos (by omega), Nat.sub_add_cancel hb] at hj'
    exact hj'.symm
  · intro h j hj
    rw [oversize_bit hbig hn 1 m hj]
    split
    · exact (h (j + bits) (by omega) (by omega)).symm
    · rfl

theorem last_source (W sw : Nat) : (if W - 1 < W - sw then W - 1 + sw else W - 1) = W - 1 := by split <;> omega

theorem rightHarmless_of_shifted {nrBits bits : Nat} {m : Mem} (hn : nrBits % 8 = 0) (hb : bits < bitIdx nrBits)
    (h : RightShifted nrBits bits m (bitarrayShift nrBits 1 bits m)) :
    (∀ i < bitIdx nrBits, bitIdx bits ≤ i → ∀ k < 8, 2 * bitPos bits ≤ k → bit m (8 * i + k) = false) ∧
      (∀ k < bitPos bits, (m.byte (bitIdx nrBits)).getLsbD k = false) ∧
      (0 < bitIdx bits → ∀ k < 8, bitPos bits ≤ k → bit m (8 * (bitIdx nrBits - 1) + k) = false) := by
  have hW := eq_mul_bitIdx hn
  have hbits := bits_eq bits
  have hr := bitPos_lt bits
  refine ⟨fun i hi hsw k hk hrk => ?_, fun k hk => ?_, fun hsw k hk hrk => ?_⟩
  -- The bits the mask drops.
  · have hj := h (8 * (i - bitIdx bits) + (k - bitPos bits)) (by omega)
    have hfrom : 8 * (i - bitIdx bits) + (k - bitPos bits) + bits = 8 * i + k := by omega
    have hmask : ¬ k - bitPos bits < bitPos bits := by omega
    have hnext : ¬ 8 - bitPos bits ≤ k - bitPos bits := by omega
    rw [if_pos (by omega), hfrom] at hj
    rw [← hj, rightShift_bit hb (by omega) (by omega)]
    split
    · rfl
    · simp [hmask, hnext]
  -- Those that come in from the byte after the array.
  · have hj := h (8 * (bitIdx nrBits - 1) + (k + 8 - bitPos bits)) (by omega)
    have htop : 8 - bitPos bits ≤ k + 8 - bitPos bits := by omega
    have hlow : k + 8 - bitPos bits + bitPos bits - 8 = k := by omega
    have hafter : ((bitIdx nrBits - 1 : Nat) : Int) + 1 = bitIdx nrBits := by omega
    rw [if_neg (by omega), rightShift_bit hb (by omega) (by omega), if_neg (by omega)] at hj
    simp only [last_source, htop, decide_true, Bool.true_and, Bool.or_eq_false_iff] at hj
    simpa [hlow, hafter] using hj.2
  -- The last byte kept, cleared with those that should be.
  · have hj := h (8 * (bitIdx nrBits - 1 - bitIdx bits) + (k - bitPos bits)) (by omega)
    have hfrom : 8 * (bitIdx nrBits - 1 - bitIdx bits) + (k - bitPos bits) + bits = 8 * (bitIdx nrBits - 1) + k := by
      omega
    rw [if_pos (by omega), hfrom, rightShift_bit hb (by omega) (by omega), if_pos (by omega)] at hj
    exact hj.symm

section Harmless

variable {nrBits bits p k : Nat} {m : Mem} (hb : bits < bitIdx nrBits) (hk : k < 8)
  (hlost : ∀ i < bitIdx nrBits, bitIdx bits ≤ i → ∀ k < 8, 2 * bitPos bits ≤ k → bit m (8 * i + k) = false)
include hb hk hlost

theorem rightShift_inner (hp : p < bitIdx nrBits - 1 - bitIdx bits) :
    bit (bitarrayShift nrBits 1 bits m) (8 * p + k) = bit m (8 * p + k + bits) := by
  have hbits := bits_eq bits
  have hr := bitPos_lt bits
  have hq : p < bitIdx nrBits - bitIdx bits := by omega
  rw [rightShift_bit hb (by omega) hk, if_neg (by omega)]
  simp only [hq, if_true]
  rcases Nat.lt_or_ge (k + bitPos bits) 8 with hkr | hkr
  · have hto : 8 * p + k + bits = 8 * (p + bitIdx bits) + (k + bitPos bits) := by omega
    have hnext : ¬ 8 - bitPos bits ≤ k := by omega
    rw [hto]
    by_cases hmask : k < bitPos bits
    · rw [bit_eq hkr]
      simp [hmask, hnext]
    · rw [hlost (p + bitIdx bits) (by omega) (by omega) (k + bitPos bits) hkr (by omega)]
      simp [hmask, hnext]
  · have hto : 8 * p + k + bits = 8 * (p + bitIdx bits + 1) + (k + bitPos bits - 8) := by omega
    have hnext : 8 - bitPos bits ≤ k := by omega
    rw [hto, bit_eq (by omega), BitVec.getLsbD_of_ge _ _ hkr]
    simp [hnext]

theorem rightShift_last (hn : nrBits % 8 = 0)
    (hafter : ∀ k < bitPos bits, (m.byte (bitIdx nrBits)).getLsbD k = false)
    (hlast : 0 < bitIdx bits → ∀ k < 8, bitPos bits ≤ k → bit m (8 * (bitIdx nrBits - 1) + k) = false) :
    bit (bitarrayShift nrBits 1 bits m) (8 * (bitIdx nrBits - 1) + k) =
      if 8 * (bitIdx nrBits - 1) + k + bits < nrBits then bit m (8 * (bitIdx nrBits - 1) + k + bits) else false := by
  have hW := eq_mul_bitIdx hn
  have hbits := bits_eq bits
  have hr := bitPos_lt bits
  have hin : (decide (8 - bitPos bits ≤ k) &&
      (m.byte ((bitIdx nrBits - 1 : Nat) + 1 : Int)).getLsbD (k + bitPos bits - 8)) = false := by
    by_cases h8 : 8 - bitPos bits ≤ k
    · have hnext : ((bitIdx nrBits - 1 : Nat) : Int) + 1 = bitIdx nrBits := by omega
      simpa [h8, hnext] using hafter (k + bitPos bits - 8) (by omega)
    · simp [h8]
  rw [rightShift_bit hb (by omega) hk, if_neg (by omega)]
  simp only [last_source, hin, Bool.or_false]
  rcases Nat.lt_or_ge (k + bitPos bits) 8 with hkr | hkr
  · rcases Nat.eq_zero_or_pos (bitIdx bits) with hsw | hsw
    · have hto : 8 * (bitIdx nrBits - 1) + k + bits = 8 * (bitIdx nrBits - 1) + (k + bitPos bits) := by omega
      rw [if_pos (by omega), hto]
      by_cases hmask : k < bitPos bits
      · rw [bit_eq hkr]
        simp [hmask]
      · rw [hlost (bitIdx nrBits - 1) (by omega) (by omega) (k + bitPos bits) hkr (by omega)]
        simp [hmask]
    · have hzero := hlast hsw (k + bitPos bits) hkr (by omega)
      rw [bit_eq hkr] at hzero
      rw [if_neg (by omega), hzero, Bool.and_false]
  · rw [if_neg (by omega), BitVec.getLsbD_of_ge _ _ hkr, Bool.and_false]

end Harmless

theorem rightShifted_of_harmless {nrBits bits : Nat} {m : Mem} (hn : nrBits % 8 = 0) (hb : bits < bitIdx nrBits)
    (hlost : ∀ i < bitIdx nrBits, bitIdx bits ≤ i → ∀ k < 8, 2 * bitPos bits ≤ k → bit m (8 * i + k) = false)
    (hafter : ∀ k < bitPos bits, (m.byte (bitIdx nrBits)).getLsbD k = false)
    (hlast : 0 < bitIdx bits → ∀ k < 8, bitPos bits ≤ k → bit m (8 * (bitIdx nrBits - 1) + k) = false) :
    RightShifted nrBits bits m (bitarrayShift nrBits 1 bits m) := by
  have hW := eq_mul_bitIdx hn
  have hbits := bits_eq bits
  have hr := bitPos_lt bits
  intro j hj
  obtain ⟨p, k, rfl, hp, hk⟩ := exists_byte hn hj
  by_cases hclear : bitIdx nrBits - 1 - bitIdx bits ≤ p ∧ p < bitIdx nrBits - 1
  · rw [rightShift_bit hb hp hk, if_pos hclear]
    split
    · have hto : 8 * p + k + bits = 8 * (bitIdx nrBits - 1) + (k + bitPos bits) := by omega
      rw [hto]
      exact (hlast (by omega) (k + bitPos bits) (by omega) (by omega)).symm
    · rfl
  · rcases Nat.lt_or_ge p (bitIdx nrBits - 1 - bitIdx bits) with hinner | hge
    · rw [if_pos (by omega)]
      exact rightShift_inner hb hk hlost hinner
    · obtain rfl : p = bitIdx nrBits - 1 := by omega
      exact rightShift_last hb hk hlost hn hafter hlast

theorem rightShifted_iff {nrBits bits : Nat} (hn : nrBits % 8 = 0) (m : Mem) :
    RightShifted nrBits bits m (bitarrayShift nrBits 1 bits m) ↔ RightHarmless nrBits bits m := by
  unfold RightHarmless
  by_cases hbig : bitIdx nrBits ≤ bits
  · rw [if_pos hbig]
    exact rightShifted_iff_of_oversize hn hbig m
  · rw [if_neg hbig]
    have hb := Nat.lt_of_not_le hbig
    exact ⟨rightHarmless_of_shifted hn hb, fun h => rightShifted_of_harmless hn hb h.1 h.2.1 h.2.2⟩

/-- **When `bitarray_shift` is a logical shift.** For every array of
`nr_bits` bits (a multiple of 8) with any contents and surroundings, and every
shift count: the left shift is one exactly when `LeftHarmless`, the right
shift exactly when `RightHarmless`. -/
theorem bitarrayShift_logical_iff {nrBits : Nat} (hn : nrBits % 8 = 0) (bits : Nat) (m : Mem) :
    (LeftShifted nrBits bits m (bitarrayShift nrBits 0 bits m) ↔ LeftHarmless nrBits bits m) ∧
      (RightShifted nrBits bits m (bitarrayShift nrBits 1 bits m) ↔ RightHarmless nrBits bits m) :=
  ⟨leftShifted_iff hn m, rightShifted_iff hn m⟩

/-- The memory of an array of `nr_bits` bits: the field, the array, zeros. -/
def layout (nrBits : Nat) (array : List (BitVec 8)) : Mem where
  byte i := if i < 0 then BitVec.ofNat 8 (nrBits / 256 ^ (i + 4).toNat) else array.getD i.toNat 0
  touched := []

/-- Sixteen bits with only bit 0 set shifted left by one, and as many with
only bit 15 set shifted right by one: the bit is lost. -/
theorem bitarrayShift_loses_bits :
    ¬ LeftShifted 16 1 (layout 16 [1, 0]) (bitarrayShift 16 0 1 (layout 16 [1, 0])) ∧
      ¬ RightShifted 16 1 (layout 16 [0, 128]) (bitarrayShift 16 1 1 (layout 16 [0, 128])) := by
  unfold LeftShifted RightShifted
  decide

theorem bitarrayShift_logical_iff_sample :
    LeftShifted 16 16 (layout 16 [255, 3]) (bitarrayShift 16 0 16 (layout 16 [255, 3])) ∧
      ¬ RightShifted 16 1 (layout 16 [0, 128]) (bitarrayShift 16 1 1 (layout 16 [0, 128])) := by
  have hn : 16 % 8 = 0 := by decide
  have h := bitarrayShift_logical_iff hn
  refine ⟨(h 16 _).1.2 ?_, fun hr => ?_⟩
  · unfold LeftHarmless
    rw [if_pos (by decide)]
    intro j hj
    omega
  · have := (h 1 _).2.1 hr
    unfold RightHarmless at this
    rw [if_neg (by decide)] at this
    exact absurd (this.1 1 (by decide) (by decide) 7 (by decide) (by decide)) (by decide)

/-! ## Accesses -/

theorem mem_span {start n : Nat} {p : Int} : p ∈ span start n ↔ start ≤ p ∧ p < start + n := by
  rw [span, List.mem_map]
  constructor
  · intro h
    obtain ⟨k, hk, rfl⟩ := h
    have := List.mem_range.1 hk
    omega
  · intro hp
    exact ⟨(p - start).toNat, List.mem_range.2 (by omega), by omega⟩

theorem rightTurn_touched (r i : Nat) (m : Mem) (p : Int) :
    p ∈ (rightTurn r i m).touched ↔ p = i ∨ p = i + 1 ∨ p ∈ m.touched := by
  simp only [rightTurn, Mem.read, Mem.write, List.mem_cons]
  tauto

theorem leftTurn_touched (r i : Nat) (m : Mem) (p : Int) :
    p ∈ (leftTurn r i m).touched ↔ p = i ∨ p = i - 1 ∨ p ∈ m.touched := by
  simp only [leftTurn, Mem.read, Mem.write, List.mem_cons]
  tauto

/-- The right shift's loop ends at the byte behind its last one. -/
theorem rightLoop_touched (r n i : Nat) (m : Mem) (p : Int) :
    p ∈ (rightLoop r n i m).touched ↔ (0 < n ∧ i ≤ p ∧ p ≤ i + n) ∨ p ∈ m.touched := by
  induction n generalizing i m with
  | zero => simp [rightLoop]
  | succ n ih =>
    rw [rightLoop, ih, rightTurn_touched, ← or_assoc, ← or_assoc]
    refine or_congr_left ?_
    omega

/-- The left shift's loop ends at the byte before its first one. -/
theorem leftLoop_touched (r n : Nat) (m : Mem) (p : Int) :
    p ∈ (leftLoop r n m).touched ↔ (0 < n ∧ -1 ≤ p ∧ p < n) ∨ p ∈ m.touched := by
  induction n generalizing m with
  | zero => simp [leftLoop]
  | succ n ih =>
    rw [leftLoop, ih, leftTurn_touched, ← or_assoc, ← or_assoc]
    refine or_congr_left ?_
    omega

/-- **When `bitarray_shift` stays inside the array**: for every width, shift
count, direction and contents, exactly when the shift is for as many bits as
there are bytes, or more, and the array is only cleared. -/
theorem bitarrayShift_inside_iff (nrBits bits : Nat) (dir : Int) (byte : Int → BitVec 8) :
    (∀ p ∈ (bitarrayShift nrBits dir bits ⟨byte, []⟩).touched, 0 ≤ p ∧ p < bitIdx nrBits) ↔ bitIdx nrBits ≤ bits := by
  constructor
  · intro hinside
    by_contra hlt
    have hwords : ¬ bitIdx bits > bitIdx nrBits := by unfold bitIdx at *; omega
    have hturns : 0 < bitIdx nrBits - bitIdx bits := by unfold bitIdx at *; omega
    simp only [bitarrayShift, hlt, hwords, if_false] at hinside
    split at hinside
    · have hbehind := hinside (bitIdx nrBits) (by
        simp only [Mem.clear, Mem.move, List.mem_append, rightLoop_touched]
        exact .inr (.inr (.inl ⟨hturns, by omega⟩)))
      omega
    · have hbefore := hinside (-1) (by
        simp only [Mem.clear, Mem.move, List.mem_append, leftLoop_touched]
        exact .inr (.inr (.inl ⟨hturns, by omega⟩)))
      omega
  · intro hle p hp
    simp only [bitarrayShift, hle, if_true, Mem.clear, List.append_nil, mem_span] at hp
    omega

/-- An array of 16 bits shifted by one, either way: a byte outside it is read. -/
theorem bitarrayShift_reads_outside :
    (¬ ∀ p ∈ (bitarrayShift 16 1 1 ⟨fun _ => 0, []⟩).touched, 0 ≤ p ∧ p < bitIdx 16) ∧
      ¬ ∀ p ∈ (bitarrayShift 16 0 1 ⟨fun _ => 0, []⟩).touched, 0 ≤ p ∧ p < bitIdx 16 := by decide

end SugarNSpice.BitArray
