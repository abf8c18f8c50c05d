/-
`bitarray_set` and `bitarray_get` as a finite set of positions, and what they
do with a position that is not in the array.

Within the array a set changes the one bit it names (`bitarraySet_bit`), so a
whole history of sets leaves just the bits it names. The guard of both
functions lets the position `nr_bits` pass, and every negative one.
-/
import SugarNSpice.BitArrayFacts

namespace SugarNSpice.BitArray

/-! ## Positions within the array -/

theorem byteIdx_natCast (j : Nat) : byteIdx j = bitIdx j := by unfold byteIdx bitIdx; omega

theorem bytePos_natCast (j : Nat) : bytePos j = bitPos j := by unfold bytePos bitPos; omega

theorem eq_of_bitIdx_eq {j k : Nat} (hidx : bitIdx j = bitIdx k) (hpos : bitPos j = bitPos k) : j = k := by
  rw [bits_eq j, bits_eq k, hidx, hpos]

theorem oneBit_getLsbD {p : Nat} (hp : p < 8) (k : Nat) : (1#8 <<< p).getLsbD k = decide (k = p) := by
  rw [BitVec.getLsbD_shiftLeft, BitVec.getLsbD_one]
  by_cases hk : k = p
  · subst hk
    simp [hp]
  · rcases Nat.lt_or_gt_of_ne hk with hlt | hgt
    · simp [hlt, hk]
    · have hsub : k - p ≠ 0 := by omega
      simp [hk, hsub]

theorem and_oneBit_ne_zero {p : Nat} (hp : p < 8) (b : BitVec 8) : b &&& 1#8 <<< p ≠ 0 ↔ b.getLsbD p = true := by
  constructor
  · intro hne
    by_contra hb
    refine hne (BitVec.eq_of_getLsbD_eq fun k _ => ?_)
    rw [BitVec.getLsbD_and, oneBit_getLsbD hp]
    by_cases hk : k = p
    · subst hk
      simpa using hb
    · simp [hk]
  · intro hb hzero
    have hbit := congrArg (fun v => v.getLsbD p) hzero
    simp [oneBit_getLsbD hp, hb] at hbit

/-- **A set** of a position within the array adds this one. -/
theorem bitarraySet_bit {nrBits j : Nat} (hj : j < nrBits) (m : Mem) :
    (bitarraySet nrBits j m).1 = 0 ∧ ∀ k, bit (bitarraySet nrBits j m).2 k = (bit m k || decide (k = j)) := by
  have hguard : ¬ (j : Int) > nrBits := by omega
  rw [bitarraySet, if_neg hguard]
  refine ⟨rfl, fun k => ?_⟩
  simp only [Mem.read, Mem.write, bit, byteIdx_natCast, bytePos_natCast, Function.update_apply]
  by_cases hidx : bitIdx k = bitIdx j
  · rw [if_pos (by omega), BitVec.getLsbD_or, oneBit_getLsbD (bitPos_lt j), hidx]
    congr 1
    rw [decide_eq_decide]
    exact ⟨fun hpos => eq_of_bitIdx_eq hidx hpos, fun heq => by rw [heq]⟩
  · have hne : k ≠ j := fun heq => hidx (by rw [heq])
    rw [if_neg (by omega)]
    simp [hne]

/-- **A get** of a position within the array answers with its bit. -/
theorem bitarrayGet_bit {nrBits j : Nat} (hj : j < nrBits) (m : Mem) :
    (bitarrayGet nrBits j m).1 = if bit m j then 1 else 0 := by
  have hguard : ¬ (j : Int) > nrBits := by omega
  rw [bitarrayGet, if_neg hguard]
  simp only [Mem.read, byteIdx_natCast, bytePos_natCast, bit]
  exact if_congr (and_oneBit_ne_zero (bitPos_lt j) _) rfl rfl

/-! ## Histories -/

theorem setAll_bit {nrBits : Nat} {bits : List Int} (hbits : ∀ b ∈ bits, 0 ≤ b ∧ b < nrBits) (m : Mem) :
    (setAll nrBits bits m).1 = bits.map (fun _ => 0) ∧
      ∀ k : Nat, bit (setAll nrBits bits m).2 k = (bit m k || decide ((k : Int) ∈ bits)) := by
  induction bits generalizing m with
  | nil => exact ⟨rfl, fun k => by simp [setAll]⟩
  | cons b bits ih =>
    obtain ⟨h0, hlt⟩ := hbits b (.head _)
    obtain ⟨j, rfl⟩ := Int.eq_ofNat_of_zero_le h0
    obtain ⟨hret, hset⟩ := bitarraySet_bit (Int.ofNat_lt.1 hlt) m
    obtain ⟨hrets, hsets⟩ := ih (fun x hx => hbits x (.tail _ hx)) (bitarraySet nrBits j m).2
    refine ⟨?_, fun k => ?_⟩
    · rw [setAll, List.map_cons, ← hrets, ← hret]
    · rw [setAll, hsets, hset, Bool.or_assoc]
      congr 1
      simp

theorem bitarrayCreate_bit {nrBits : Nat} (hn : nrBits % 8 = 0) (byte : Int → BitVec 8) :
    ∃ m, bitarrayCreate nrBits (some byte) = .ok (some m) ∧ ∀ j < nrBits, bit m j = false := by
  refine ⟨_, by simp only [bitarrayCreate, hn, ne_eq, not_true_eq_false, if_false]; rfl, fun j hj => ?_⟩
  have hbyte : (bitIdx j : Int) < bitIdx nrBits := by unfold bitIdx; omega
  have hzero : ¬ (bitIdx j : Int) < 0 := by omega
  simp only [bit, createdByte]
  rw [if_pos (by omega), if_neg hzero]
  exact BitVec.getLsbD_zero

/-- **A finite set.** On the array of `bitarray_create(nr_bits)`, after any
sets of positions within it, in any order and with repetitions: every call has
returned 0, and `bitarray_get` returns 1 for the positions set and 0 for all
others. -/
theorem bitarray_set_get {nrBits : Nat} (hn : nrBits % 8 = 0) (byte : Int → BitVec 8) :
    ∃ m₀, bitarrayCreate nrBits (some byte) = .ok (some m₀) ∧
      ∀ bits : List Int, (∀ b ∈ bits, 0 ≤ b ∧ b < nrBits) →
        (setAll nrBits bits m₀).1 = bits.map (fun _ => 0) ∧
          ∀ b : Int, 0 ≤ b → b < nrBits →
            (bitarrayGet nrBits b (setAll nrBits bits m₀).2).1 = if b ∈ bits then 1 else 0 := by
  obtain ⟨m₀, hcreate, hzero⟩ := bitarrayCreate_bit hn byte
  refine ⟨m₀, hcreate, fun bits hbits => ?_⟩
  obtain ⟨hrets, hsets⟩ := setAll_bit hbits m₀
  refine ⟨hrets, fun b h0 hlt => ?_⟩
  obtain ⟨j, rfl⟩ := Int.eq_ofNat_of_zero_le h0
  have hj : j < nrBits := Int.ofNat_lt.1 hlt
  rw [bitarrayGet_bit hj, hsets, hzero j hj]
  simp

theorem bitarray_set_get_sample :
    ∃ m₀, bitarrayCreate 16 (some fun _ => 255) = .ok (some m₀) ∧
      (setAll 16 [9, 3, 9] m₀).1 = [0, 0, 0] ∧ (bitarrayGet 16 9 (setAll 16 [9, 3, 9] m₀).2).1 = 1 ∧
        (bitarrayGet 16 8 (setAll 16 [9, 3, 9] m₀).2).1 = 0 := by
  obtain ⟨m₀, hcreate, hrun⟩ := @bitarray_set_get 16 rfl fun _ => 255
  obtain ⟨hrets, hget⟩ := hrun [9, 3, 9] (by decide)
  exact ⟨m₀, hcreate, hrets, hget 9 (by decide) (by decide), hget 8 (by decide) (by decide)⟩

/-! ## Positions outside the array -/

/-- A call on the array `m` that is refused: it returns `-EINVAL`, leaves the
array's bytes alone, and looks at none outside it. -/
structure Refused (nrBits : Nat) (byte : Int → BitVec 8) (call : Mem → Int × Mem) : Prop where
  returns : (call ⟨byte, []⟩).1 = -einval
  unchanged : ∀ i, 0 ≤ i → i < bitIdx nrBits → (call ⟨byte, []⟩).2.byte i = byte i
  inside : ∀ i ∈ (call ⟨byte, []⟩).2.touched, 0 ≤ i ∧ i < bitIdx nrBits

/-- **Which positions are refused**: those beyond `nr_bits`, by both functions;
not `nr_bits` itself, the first one past the end, and none below 0. -/
theorem refused_iff (nrBits : Nat) (byte : Int → BitVec 8) (b : Int) :
    (Refused nrBits byte (bitarraySet nrBits b) ∧ Refused nrBits byte (bitarrayGet nrBits b)) ↔ nrBits < b := by
  constructor
  · intro hrefused
    by_contra hle
    have hreturns := hrefused.1.returns
    rw [bitarraySet, if_neg hle] at hreturns
    have hzero : (0 : Int) = -einval := hreturns
    exact absurd hzero (by decide)
  · intro hlt
    have hset : ∀ m, bitarraySet nrBits b m = (-einval, m) := fun m => if_pos hlt
    have hget : ∀ m, bitarrayGet nrBits b m = (-einval, m) := fun m => if_pos hlt
    refine ⟨⟨by rw [hset], fun i _ _ => by rw [hset], ?_⟩, ⟨by rw [hget], fun i _ _ => by rw [hget], ?_⟩⟩
    · rw [hset]
      exact nofun
    · rw [hget]
      exact nofun

/-- In an array of eight bits, the first position past the end is set, in the
byte behind the array, and so is the last one before its start, in the
`nr_bits` field. -/
theorem outside_is_set :
    (¬ Refused 8 (fun _ => 0) (bitarraySet 8 8) ∧ ¬ Refused 8 (fun _ => 0) (bitarrayGet 8 8)) ∧
      ¬ Refused 8 (fun _ => 0) (bitarraySet 8 (-1)) ∧ ¬ Refused 8 (fun _ => 0) (bitarrayGet 8 (-1)) := by
  refine ⟨⟨fun h => ?_, fun h => ?_⟩, fun h => ?_, fun h => ?_⟩ <;> exact absurd h.returns (by decide)

end SugarNSpice.BitArray
