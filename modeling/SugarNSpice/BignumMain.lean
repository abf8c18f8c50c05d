/-
`test_large_mult.c`'s `main`: two products, and then a factorial by repeated
multiplication, with the sum of its digits.

`bound` stands for the constant of the loop, which is 100 in the source (the
comments there say 10). `num1` has four cells and takes the loop's counter;
each product is five cells longer than the last, so the number has leading
zeros, and more of them than digits before long. What is printed on the way
depends on the bytes behind the blocks (`BignumPrintFacts`); `behind` tells
them for each call of `bignum_print`.
-/
import SugarNSpice.BignumPrintFacts
import Mathlib.Data.Nat.Digits.Defs
import Mathlib.Data.Nat.Factorial.Basic

namespace SugarNSpice.Bignum

open CLang

/-- The variables of `main` in the factorial's loop, and the text so far. -/
structure Factorial where
  num1 : BignumT
  num2 : BignumT
  text : List Char

/-- The loop's body at `i`. -/
def factorialTurn (behind : Nat → List Int) (i : Nat) (s : Factorial) : Outcome Factorial := do
  let (num1, _) ← bignumSet s.num1 i
  let num3 ← bignumMult num1 s.num2
  let p ← bignumPrint num3 (behind (i + 1))
  .ok ⟨num1, num3, s.text ++ p.text⟩

/-- The body of the last loop. -/
def sumTurn (num : List Int) (i : Nat) (sumDigits : Int) : Outcome Int := do
  let d ← load num i
  int (sumDigits + d)

/-- The product of 9999 and 8999, for which the two numbers are made. -/
def mainExample (behind : Nat → List Int) : Outcome Factorial := do
  let num1 ← bignumAlloc 4
  let num2 ← bignumAlloc 4
  let (num1, _) ← bignumSet num1 9999
  let (num2, _) ← bignumSet num2 8999
  let p ← bignumPrint num1 (behind 0)
  let q ← bignumPrint num2 (behind 1)
  let num3 ← bignumMult num1 num2
  let r ← bignumPrint num3 (behind 2)
  .ok ⟨num1, num2, p.text ++ q.text ++ r.text⟩

/-- `main`: its text, and the sum in the last line of it. -/
def main (bound : Nat) (behind : Nat → List Int) : Outcome (List Char × Int) := do
  let s ← mainExample behind
  let (num2, _) ← bignumSet s.num2 1
  let s ← forUp (factorialTurn behind) (bound - 1) 2 { s with num2 }
  let sumDigits ← forUp (sumTurn s.num2.num) s.num2.len 0 0
  .ok (s.text ++ "sum digits = ".toList ++ printfInt sumDigits ++ ['\n'], sumDigits)

/-! ## Sums of digits -/

theorem sum_digits_cons {d : Nat} (hd : d < 10) (n : Nat) :
    (Nat.digits 10 (d + 10 * n)).sum = d + (Nat.digits 10 n).sum := by
  rcases Nat.eq_zero_or_pos (d + 10 * n) with h0 | hpos
  · obtain ⟨rfl, rfl⟩ : d = 0 ∧ n = 0 := by omega
    simp
  · rw [Nat.digits_def' (by simp) hpos, List.sum_cons, show (d + 10 * n) % 10 = d by omega,
      show (d + 10 * n) / 10 = n by omega]

/-- Leading zeros or not, the cells add up to the sum of the value's digits. -/
theorem sum_cells {num : List Int} (h : Digits 0 num) :
    ∃ v : Nat, value num = v ∧ num.sum = ((Nat.digits 10 v).sum : Nat) := by
  induction num with
  | nil => exact ⟨0, rfl, by simp⟩
  | cons d ds ih =>
    obtain ⟨v, hv, hsum⟩ := ih fun x hx => h x (List.mem_cons_of_mem d hx)
    obtain ⟨hd0, hd9⟩ := h d List.mem_cons_self
    obtain ⟨d, rfl⟩ := Int.eq_ofNat_of_zero_le hd0
    refine ⟨d + 10 * v, ?_, ?_⟩
    · rw [value_cons, hv]
      push_cast
      rfl
    · rw [List.sum_cons, hsum, sum_digits_cons (by omega)]
      push_cast
      rfl

theorem sum_take_le {num : List Int} (h : Digits 0 num) (i : Nat) :
    0 ≤ (num.take i).sum ∧ (num.take i).sum ≤ 9 * num.length := by
  induction num generalizing i with
  | nil => simp
  | cons d ds ih =>
    obtain ⟨hd0, hd9⟩ := h d List.mem_cons_self
    cases i with
    | zero => simp; omega
    | succ i =>
      have hrest := ih (fun x hx => h x (List.mem_cons_of_mem d hx)) i
      simp only [List.take_succ_cons, List.sum_cons, List.length_cons]
      omega

theorem sumTurn_total {num : List Int} (h : Digits 0 num) (hlen : 9 * (num.length : Int) ≤ intMax) :
    forUp (sumTurn num) num.length 0 0 = .ok num.sum := by
  have hturn : ∀ i s, 0 ≤ i → i < 0 + num.length → s = (num.take i).sum →
      ∃ s', sumTurn num i s = .ok s' ∧ s' = (num.take (i + 1)).sum := by
    rintro i s - hi rfl
    have hi' : i < num.length := by omega
    have hnext : (num.take i).sum + num[i] = (num.take (i + 1)).sum := by
      rw [List.take_succ_eq_append_getElem hi', List.sum_append, List.sum_singleton]
    have hb := sum_take_le h (i + 1)
    refine ⟨_, ?_, rfl⟩
    rw [sumTurn, load_ok hi', ok_bind, hnext]
    exact int_ok ⟨by unfold intMax; omega, by omega⟩
  obtain ⟨s, hs, rfl⟩ := forUp_total hturn (a := 0) (s := 0) (by simp)
  rw [hs, Nat.zero_add, List.take_length]

/-! ## The factorial -/

theorem bignumSet_value {b : BignumT} (h : Ok 0 b) {v : Nat} (hv : v < 10 ^ b.len) :
    ∃ b', bignumSet b v = .ok (b', 0) ∧ b'.len = b.len ∧ Ok 0 b' ∧ value b'.num = v := by
  have hset := bignumSet_eq (Nat.le_of_eq h.length.symm) v
  rw [if_pos (by rwa [Int.natAbs_natCast])] at hset
  refine ⟨_, hset, rfl, bignumSet_digits (.inr ⟨rfl, Int.natCast_nonneg v⟩) h.length hset, ?_⟩
  rw [setUpTo, ← h.length, List.drop_length, List.append_nil, value_digitAt, h.length,
    Int.tmod_eq_of_lt (Int.natCast_nonneg v)]
  exact_mod_cast hv

theorem bignumPrint_ok {b : BignumT} (h : Ok 0 b) {behind : List Int} (hb : behind ≠ []) :
    ∃ p, bignumPrint b behind = .ok p := by
  have hlt : b.len < (b.num ++ behind).length := by
    have := List.length_pos_iff.2 hb
    rw [List.length_append, h.length]
    omega
  unfold bignumPrint
  rw [printDown_spec hlt, ok_bind]
  exact ⟨_, rfl⟩

/-- When the loop is about to multiply by `i`. -/
structure Multiplying (i : Nat) (s : Factorial) : Prop where
  num1 : Ok 0 s.num1
  len1 : s.num1.len = 4
  num2 : Ok 0 s.num2
  len2 : s.num2.len + 6 = 5 * i
  value : value s.num2.num = (i - 1).factorial

variable {behind : Nat → List Int}

theorem factorialTurn_multiplying (hb : ∀ j, behind j ≠ []) {i : Nat} (hi : 2 ≤ i) (hi' : i ≤ 9999) {s : Factorial}
    (h : Multiplying i s) : ∃ s', factorialTurn behind i s = .ok s' ∧ Multiplying (i + 1) s' := by
  have hlen1 := h.len1
  have hlen2 := h.len2
  obtain ⟨num1, hset, hl1, hok1, hv1⟩ := bignumSet_value h.num1 (v := i) (by rw [hlen1]; omega)
  obtain ⟨num3, hmult, hl3, hok3, hv3⟩ := bignumMult_spec (.inl rfl) hok1 h.num2 (by unfold intMax; omega)
  obtain ⟨p, hp⟩ := bignumPrint_ok hok3 (hb (i + 1))
  refine ⟨⟨num1, num3, s.text ++ p.text⟩, ?_, hok1, hl1.trans hlen1, hok3, by simp only; omega, ?_⟩
  · simp only [factorialTurn, hset, ok_bind, hmult, hp]
  · have hfact : i.factorial = i * (i - 1).factorial := (Nat.mul_factorial_pred (by omega)).symm
    rw [hv3, hv1, h.value, Nat.add_sub_cancel, hfact]
    push_cast
    rfl

theorem mainExample_ok (hb : ∀ j, behind j ≠ []) :
    ∃ s, mainExample behind = .ok s ∧ Ok 0 s.num1 ∧ s.num1.len = 4 ∧ Ok 0 s.num2 ∧ s.num2.len = 4 := by
  have hzero : Ok 0 ⟨4, List.replicate 4 0⟩ := ⟨rfl, digits_replicate_zero (Int.le_refl 0) 4⟩
  obtain ⟨num1, hset1, hl1, hok1, -⟩ := bignumSet_value hzero (v := 9999) (by simp)
  obtain ⟨num2, hset2, hl2, hok2, -⟩ := bignumSet_value hzero (v := 8999) (by simp)
  obtain ⟨num3, hmult, -, hok3, -⟩ := bignumMult_spec (.inl rfl) hok1 hok2 (by rw [hl1, hl2]; unfold intMax; simp)
  obtain ⟨p, hp⟩ := bignumPrint_ok hok1 (hb 0)
  obtain ⟨q, hq⟩ := bignumPrint_ok hok2 (hb 1)
  obtain ⟨r, hr⟩ := bignumPrint_ok hok3 (hb 2)
  refine ⟨⟨num1, num2, p.text ++ q.text ++ r.text⟩, ?_, hok1, hl1, hok2, hl2⟩
  have halloc : bignumAlloc 4 = .ok ⟨4, List.replicate 4 0⟩ := bignumAlloc_ok (by simp)
  simp only [mainExample, halloc, ok_bind, Nat.cast_ofNat] at hset1 hset2 ⊢
  simp only [hset1, hset2, hp, hq, hmult, hr, ok_bind]

/-- **`main` adds up the digits of the factorial**, for every bound whose
numbers fit the four cells of `num1`. -/
theorem main_sums_factorial {bound : Nat} (hlo : 1 ≤ bound) (hhi : bound ≤ 9999) (hb : ∀ j, behind j ≠ []) :
    ∃ text, main bound behind = .ok (text ++ "sum digits = ".toList ++
      Nat.toDigits 10 (Nat.digits 10 bound.factorial).sum ++ ['\n'], ((Nat.digits 10 bound.factorial).sum : Nat)) := by
  obtain ⟨s₀, hexample, hok1, hl1, hok2, hl2⟩ := mainExample_ok hb
  obtain ⟨num2, hset, hl, hok, hv⟩ := bignumSet_value hok2 (v := 1) (by simp [hl2])
  have hstart : Multiplying 2 { s₀ with num2 := num2 } :=
    ⟨hok1, hl1, hok, by simp only; omega, by simpa using hv⟩
  obtain ⟨s, hloop, hs⟩ := forUp_total (n := bound - 1)
    (fun i s hi hlt => factorialTurn_multiplying hb hi (by omega)) hstart
  have hlen := hs.len2
  have hlength := hs.num2.length
  obtain ⟨v, hval, hsum⟩ := sum_cells hs.num2.digits
  have hvb : v = bound.factorial := by
    have := hval.symm.trans hs.value
    rw [show 2 + (bound - 1) - 1 = bound by omega] at this
    exact_mod_cast this
  have hsums := sumTurn_total hs.num2.digits (by unfold intMax; omega)
  rw [hlength, hsum, hvb] at hsums
  refine ⟨s.text, ?_⟩
  simp only [Nat.cast_one] at hset
  simp only [main, hexample, ok_bind, hset, hloop, hsums, printfInt_nonneg (Int.natCast_nonneg _), Int.natAbs_natCast]

/-- 10! is 3628800, and 27 the sum. -/
theorem main_sums_factorial_sample : ∃ text, main 10 (fun _ => [0]) = .ok (text, 27) := by
  have hb : ∀ j : Nat, (fun _ => [0] : Nat → List Int) j ≠ [] := by simp
  obtain ⟨text, h⟩ := main_sums_factorial (show 1 ≤ 10 by simp) (by simp) hb
  have hten : Nat.factorial 10 = 3628800 := rfl
  have hsum : (Nat.digits 10 (Nat.factorial 10)).sum = 27 := by
    rw [hten]
    norm_num
  rw [hsum] at h
  exact ⟨_, h⟩

end SugarNSpice.Bignum
