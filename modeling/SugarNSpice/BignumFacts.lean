/-
`bignum_mult` is multiplication, and `bignum_set` takes a number apart.

The row loop adds `n2->num[i] * n1` into the result at `i`: after `j` digits
the result and its carry are off by exactly what those digits contribute
(`Adding`), and after `i` rows the result is `n1` times the first `i` digits
of `n2` (`Rows`). Both carry the bound that keeps the 8-bit cells exact:
digits and carry stay within one digit, so a sum is at most `9 + 81 + 9`.
The bound is proved for digits in `[lo, 9]` with `lo` either -9 or 0, which
gives the result for signed digits and for non-negative ones at once.

`bignum_set` stores the digits `digitAt` one after another: its two loops share
one description (`setUpTo`), as the second only fills in digits that are 0.
-/
import SugarNSpice.Bignum
import Mathlib.Algebra.BigOperators.Intervals
import Mathlib.Algebra.BigOperators.Ring.Finset
import Mathlib.Tactic.Ring
import Mathlib.Tactic.LinearCombination

namespace SugarNSpice.Bignum

open CLang

/-! ## The value of a list of digits -/

@[simp] theorem value_nil : value [] = 0 := rfl

theorem value_cons (d : Int) (ds : List Int) : value (d :: ds) = d + 10 * value ds := by
  simp only [value, List.length_cons, Finset.sum_range_succ', List.getD_cons_succ, List.getD_cons_zero, pow_zero,
    mul_one, Finset.mul_sum]
  rw [add_comm]
  congr 1
  exact Finset.sum_congr rfl fun i _ => by ring

theorem value_append (l m : List Int) : value (l ++ m) = value l + 10 ^ l.length * value m := by
  induction l with
  | nil => simp
  | cons d l ih => rw [List.cons_append, value_cons, value_cons, ih, List.length_cons, pow_succ]; ring

theorem value_set {l : List Int} {k : Nat} (h : k < l.length) (x : Int) :
    value (l.set k x) = value l + (x - l[k]) * 10 ^ k := by
  induction l generalizing k with
  | nil => simp at h
  | cons d l ih =>
    cases k with
    | zero => simp only [List.set_cons_zero, value_cons, List.getElem_cons_zero, pow_zero]; ring
    | succ k =>
      simp only [List.set_cons_succ, value_cons, List.getElem_cons_succ, pow_succ]
      rw [ih (by simpa using h)]; ring

theorem value_take_succ {l : List Int} {j : Nat} (h : j < l.length) :
    value (l.take (j + 1)) = value (l.take j) + l[j] * 10 ^ j := by
  rw [List.take_succ_eq_append_getElem h, value_append, List.length_take, Nat.min_eq_left (by omega), value_cons]
  simp; ring

theorem value_replicate_zero (n : Nat) : value (List.replicate n 0) = 0 := by
  induction n with
  | zero => rfl
  | succ n ih => rw [List.replicate_succ, value_cons, ih]; rfl

/-! ## Digits -/

/-- Digits from `lo` to 9. -/
def Digits (lo : Int) (num : List Int) : Prop := ∀ d ∈ num, lo ≤ d ∧ d ≤ 9

theorem Digits.set {lo : Int} {num : List Int} (h : Digits lo num) {d : Int} (hd : lo ≤ d ∧ d ≤ 9) (k : Nat) :
    Digits lo (num.set k d) := by
  intro x hx
  rcases List.mem_or_eq_of_mem_set hx with hx | rfl
  · exact h x hx
  · exact hd

theorem digits_replicate_zero {lo : Int} (hlo : lo ≤ 0) (n : Nat) : Digits lo (List.replicate n 0) := by
  intro x hx
  rw [List.eq_of_mem_replicate hx]
  omega

/-- A sum `9 + 81 + 9` and below: it fits a `char`, and its two digits are
digits again. -/
theorem digit_step {lo old a b carry : Int} (hlo : lo = 0 ∨ lo = -9) (ho : lo ≤ old ∧ old ≤ 9)
    (ha : lo ≤ a ∧ a ≤ 9) (hb : lo ≤ b ∧ b ≤ 9) (hc : lo ≤ carry ∧ carry ≤ 9) :
    IsChar (old + (a * b + carry)) ∧ (lo ≤ (old + (a * b + carry)).tmod 10 ∧ (old + (a * b + carry)).tmod 10 ≤ 9) ∧
      (lo ≤ (old + (a * b + carry)).tdiv 10 ∧ (old + (a * b + carry)).tdiv 10 ≤ 9) := by
  have hab : 9 * lo ≤ a * b ∧ a * b ≤ 81 := by
    rcases hlo with rfl | rfl
    · exact ⟨by nlinarith, by nlinarith⟩
    · exact ⟨by nlinarith, by nlinarith⟩
  generalize hx : old + (a * b + carry) = x
  have hlow : 11 * lo ≤ x := by omega
  have hhigh : x ≤ 99 := by omega
  unfold IsChar
  rcases Int.le_total 0 x with h0 | h0
  · rw [Int.tmod_eq_emod_of_nonneg h0, Int.tdiv_eq_ediv_of_nonneg h0]
    omega
  · obtain ⟨y, rfl⟩ : ∃ y, x = -y := ⟨-x, by omega⟩
    rw [Int.neg_tmod, Int.neg_tdiv, Int.tmod_eq_emod_of_nonneg (by omega), Int.tdiv_eq_ediv_of_nonneg (by omega)]
    omega

/-! ## One row -/

/-- The result after `j` digits of the row of `a` at `k`, started from `res₀`:
the digits so far are added in, up to the carry still to be placed. -/
structure Adding (lo : Int) (n1 res₀ : List Int) (a : Int) (k j : Nat) (s : Row) : Prop where
  length : s.res.length = res₀.length
  digits : Digits lo s.res
  carry : lo ≤ s.carry ∧ s.carry ≤ 9
  zeros : ∀ p, k + n1.length ≤ p → p < s.res.length → s.res[p]? = some 0
  value : value s.res + s.carry * 10 ^ (k + j) = value res₀ + a * value (n1.take j) * 10 ^ k

theorem multDigit_adding {lo a : Int} {n1 n2 res₀ : List Int} {k j : Nat} {s : Row} (hlo : lo = 0 ∨ lo = -9)
    (h1 : Digits lo n1) (h2 : Digits lo n2) (ha : n2[k]? = some a) (hj : j < n1.length)
    (hfit : k + n1.length < res₀.length) (h : Adding lo n1 res₀ a k j s) :
    ∃ s', multDigit n1 n2 k j s = .ok s' ∧ Adding lo n1 res₀ a k (j + 1) s' := by
  obtain ⟨res, carry⟩ := s
  have hlen : res.length = res₀.length := h.length
  have hkj : k + j < res.length := by omega
  obtain ⟨hchar, hmod, hdiv⟩ := digit_step hlo (h.digits res[k + j] (List.getElem_mem hkj))
    (h2 a (List.mem_of_getElem? ha)) (h1 n1[j] (List.getElem_mem hj)) h.carry
  have hval := h.value
  have hdm := Int.mul_tdiv_add_tmod (res[k + j] + (a * n1[j] + carry)) 10
  unfold multDigit
  simp only [load_ok_iff.2 ha, load_ok hj, load_ok hkj, ok_bind, char_ok hchar, store_ok hkj,
    store_ok (show k + j < (res.set (k + j) _).length by simpa using hkj), List.set_set]
  generalize hx : res[k + j] + (a * n1[j] + carry) = x at *
  rw [char_ok (show IsChar (x.tmod 10) by unfold IsChar; rcases hlo with rfl | rfl <;> omega)]
  refine ⟨_, rfl, by simpa using hlen, h.digits.set hmod _, hdiv, fun p hp hlt => ?_, ?_⟩
  · simp only [List.length_set] at hlt
    rw [List.getElem?_set_ne (by omega)]
    exact h.zeros p hp hlt
  · simp only at hval ⊢
    rw [value_set hkj, value_take_succ hj, show k + (j + 1) = k + j + 1 by omega, pow_succ]
    rw [pow_add] at hval ⊢
    linear_combination hval + 10 ^ k * 10 ^ j * hdm - 10 ^ k * 10 ^ j * hx

/-- A row adds `a * n1` at `k`, into a result whose cells above it are 0. -/
theorem multRow_spec {lo a : Int} {n1 : BignumT} {n2 res : List Int} {k : Nat} (hlo : lo = 0 ∨ lo = -9)
    (hn1 : n1.num.length = n1.len) (h1 : Digits lo n1.num) (h2 : Digits lo n2) (ha : n2[k]? = some a)
    (hfit : k + n1.len < res.length) (hd : Digits lo res)
    (hz : ∀ p, k + n1.len ≤ p → p < res.length → res[p]? = some 0) :
    ∃ res', multRow n1 n2 k res = .ok res' ∧ res'.length = res.length ∧ Digits lo res' ∧
      (∀ p, k + 1 + n1.len ≤ p → p < res'.length → res'[p]? = some 0) ∧
      value res' = value res + a * value n1.num * 10 ^ k := by
  have h0 : Adding lo n1.num res a k 0 ⟨res, 0⟩ :=
    ⟨rfl, hd, by simp only; omega, by simpa [hn1] using hz, by simp⟩
  obtain ⟨⟨res', carry⟩, hf, hl⟩ := forUp_total (n := n1.len) (a := 0) (s := ⟨res, 0⟩)
    (fun j s _ hj hs => multDigit_adding hlo h1 h2 ha (by omega) (by omega) hs) h0
  have hlen : res'.length = res.length := hl.length
  have hlt : k + n1.len < res'.length := by omega
  have hcell : res'[k + n1.len] = 0 := by
    have := hl.zeros (k + n1.len) (by omega) hlt
    rwa [List.getElem?_eq_getElem hlt, Option.some.injEq] at this
  have hc : lo ≤ carry ∧ carry ≤ 9 := hl.carry
  have hval := hl.value
  unfold multRow
  simp only [hf, ok_bind, load_ok hlt, hcell, Int.zero_add, store_ok hlt,
    char_ok (show IsChar carry by unfold IsChar; rcases hlo with rfl | rfl <;> omega)]
  refine ⟨_, rfl, by simpa using hlen, hl.digits.set hc _, fun p hp hlt' => ?_, ?_⟩
  · simp only [List.length_set] at hlt'
    rw [List.getElem?_set_ne (by omega)]
    exact hl.zeros p (by omega) hlt'
  · rw [value_set hlt, hcell]
    simp only [Nat.zero_add, List.take_of_length_le (show n1.num.length ≤ n1.len by omega)] at hval
    linear_combination hval

/-! ## The product -/

/-- The result after `i` rows. -/
structure Rows (lo : Int) (n1 n2 : List Int) (n i : Nat) (res : List Int) : Prop where
  length : res.length = n
  digits : Digits lo res
  zeros : ∀ p, i + n1.length ≤ p → p < res.length → res[p]? = some 0
  value : value res = value n1 * value (n2.take i)

/-- What the operations keep of a bignum, and a product needs of its operands. -/
structure Ok (lo : Int) (b : BignumT) : Prop where
  length : b.num.length = b.len
  digits : Digits lo b.num

theorem bignumAlloc_ok {len : Int} (h : 0 ≤ len) :
    bignumAlloc len = .ok ⟨len.toNat, List.replicate len.toNat 0⟩ := if_pos h

/-- **`bignum_mult`** on operands of digits: no fault, the exact product,
digits again. -/
theorem bignumMult_spec {lo : Int} {n1 n2 : BignumT} (hlo : lo = 0 ∨ lo = -9) (h1 : Ok lo n1) (h2 : Ok lo n2)
    (hlen : ((n1.len + n2.len + 1 : Nat) : Int) ≤ intMax) :
    ∃ r, bignumMult n1 n2 = .ok r ∧ r.len = n1.len + n2.len + 1 ∧ Ok lo r ∧
      value r.num = value n1.num * value n2.num := by
  have hl1 := h1.length
  have hl2 := h2.length
  have h0 : Rows lo n1.num n2.num (n1.len + n2.len + 1) 0 (List.replicate (n1.len + n2.len + 1) 0) := by
    refine ⟨List.length_replicate, digits_replicate_zero (by omega) _, fun p _ hp => ?_, ?_⟩
    · simp only [List.length_replicate] at hp
      simp [hp]
    · simp [value_replicate_zero]
  have hrow : ∀ i res, 0 ≤ i → i < 0 + n2.len → Rows lo n1.num n2.num (n1.len + n2.len + 1) i res →
      ∃ res', multRow n1 n2.num i res = .ok res' ∧ Rows lo n1.num n2.num (n1.len + n2.len + 1) (i + 1) res' := by
    intro i res _ hi hs
    have hi' : i < n2.num.length := by omega
    have hlen := hs.length
    obtain ⟨res', hm, hl, hd, hz, hv⟩ := multRow_spec hlo hl1 h1.digits h2.digits (List.getElem?_eq_getElem hi')
      (by omega) hs.digits (by rw [← hl1]; exact hs.zeros)
    refine ⟨res', hm, ⟨hl.trans hlen, hd, by rw [hl1]; exact hz, ?_⟩⟩
    rw [hv, hs.value, value_take_succ hi']
    ring
  obtain ⟨num, hf, hr⟩ := forUp_total hrow h0
  refine ⟨⟨n1.len + n2.len + 1, num⟩, ?_, rfl, ⟨hr.length, hr.digits⟩, ?_⟩
  · unfold bignumMult
    simp only [nat_ok hlen, ok_bind, bignumAlloc_ok (Int.natCast_nonneg _), Int.toNat_natCast, hf]
  · rw [hr.value, List.take_of_length_le (by omega)]

/-! ## Setting -/

theorem tmod_digit (x : Int) : -9 ≤ x.tmod 10 ∧ x.tmod 10 ≤ 9 := by
  have h1 := Int.tmod_lt_of_pos x (show (0 : Int) < 10 by decide)
  have h2 := Int.lt_tmod_of_pos x (show (0 : Int) < 10 by decide)
  omega

/-- The digit of `num` at `k`, with the sign of `num`. -/
def digitAt (num : Int) (k : Nat) : Int := (num.tdiv (10 ^ k)).tmod 10

theorem tdiv_tdiv_natCast (x : Int) (a b : Nat) : (x.tdiv a).tdiv b = x.tdiv (a * b : Nat) := by
  have hnat : ∀ n : Nat, ((n : Int).tdiv a).tdiv b = (n : Int).tdiv (a * b : Nat) := fun n => by
    rw [← Int.ofNat_tdiv, ← Int.ofNat_tdiv, ← Int.ofNat_tdiv, Nat.div_div_eq_div_mul]
  rcases Int.le_total 0 x with h | h
  · obtain ⟨n, rfl⟩ := Int.eq_ofNat_of_zero_le h
    exact hnat n
  · obtain ⟨n, hn⟩ := Int.eq_ofNat_of_zero_le (show 0 ≤ -x by omega)
    obtain rfl : x = -n := by omega
    rw [Int.neg_tdiv, Int.neg_tdiv, Int.neg_tdiv, hnat]

theorem tdiv_pow_add (num : Int) (i k : Nat) : (num.tdiv (10 ^ i)).tdiv (10 ^ k) = num.tdiv (10 ^ (i + k)) := by
  have := tdiv_tdiv_natCast num (10 ^ i) (10 ^ k)
  rw [← Nat.pow_add] at this
  simpa using this

theorem tdiv_pow_succ (num : Int) (k : Nat) : (num.tdiv (10 ^ k)).tdiv 10 = num.tdiv (10 ^ (k + 1)) := by
  simpa using tdiv_pow_add num k 1

theorem digitAt_eq_zero {num : Int} {i k : Nat} (h : num.tdiv (10 ^ i) = 0) (hk : i ≤ k) : digitAt num k = 0 := by
  obtain ⟨m, rfl⟩ := Nat.exists_eq_add_of_le hk
  rw [digitAt, ← tdiv_pow_add, h, Int.zero_tdiv, Int.zero_tmod]

theorem tdiv_pow_eq_zero_iff {num : Int} {n : Nat} : num.tdiv (10 ^ n) = 0 ↔ num.natAbs < 10 ^ n := by
  rw [← Int.natAbs_eq_zero, Int.natAbs_tdiv, show ((10 : Int) ^ n).natAbs = 10 ^ n by simp [Int.natAbs_pow]]
  exact Nat.div_eq_zero_iff_lt (by positivity)

theorem digitAt_sign (num : Int) (k : Nat) :
    -9 ≤ digitAt num k ∧ digitAt num k ≤ 9 ∧ (0 ≤ num → 0 ≤ digitAt num k) ∧ (num ≤ 0 → digitAt num k ≤ 0) := by
  have hpow : (0 : Int) ≤ 10 ^ k := by positivity
  refine ⟨(tmod_digit _).1, (tmod_digit _).2, fun h => Int.tmod_nonneg _ (Int.tdiv_nonneg h hpow), fun h => ?_⟩
  obtain ⟨y, rfl⟩ : ∃ y, num = -y := ⟨-num, by omega⟩
  have := Int.tmod_nonneg 10 (Int.tdiv_nonneg (show 0 ≤ y by omega) hpow)
  rw [digitAt, Int.neg_tdiv, Int.neg_tmod]
  omega

theorem value_digitAt (num : Int) (n : Nat) : value ((List.range n).map (digitAt num)) = num.tmod (10 ^ n) := by
  induction n with
  | zero => simp
  | succ n ih =>
    have h1 := Int.mul_tdiv_add_tmod num (10 ^ n)
    have h2 := Int.mul_tdiv_add_tmod num (10 ^ (n + 1))
    have h3 := Int.mul_tdiv_add_tmod (num.tdiv (10 ^ n)) 10
    rw [tdiv_pow_succ] at h3
    rw [List.range_succ, List.map_append, value_append, ih, List.length_map, List.length_range, List.map_singleton,
      value_cons, value_nil, digitAt]
    linear_combination h1 - h2 + 10 ^ n * h3 + num.tdiv (10 ^ (n + 1)) * pow_succ (10 : Int) n

/-- The first `i` cells set, the others not yet. -/
def setUpTo (num : Int) (old : List Int) (i : Nat) : List Int := (List.range i).map (digitAt num) ++ old.drop i

theorem length_setUpTo {num : Int} {old : List Int} {i : Nat} (h : i ≤ old.length) :
    (setUpTo num old i).length = old.length := by
  simp only [setUpTo, List.length_append, List.length_map, List.length_range, List.length_drop]
  omega

theorem store_setUpTo {num : Int} {old : List Int} {i : Nat} (h : i < old.length) :
    store (setUpTo num old i) i (digitAt num i) = .ok (setUpTo num old (i + 1)) := by
  rw [store_ok (by rw [length_setUpTo (by omega)]; exact h)]
  unfold setUpTo
  rw [List.set_append_right _ _ (by simp), List.drop_eq_getElem_cons h, List.range_succ]
  simp only [List.length_map, List.length_range, Nat.sub_self, List.set_cons_zero, List.map_append,
    List.map_singleton, List.append_assoc, List.singleton_append]

/-- The first loop's state: what is left of `num` after its `i` low digits. -/
structure Storing (num : Int) (old : List Int) (n : Nat) (s : Setting) : Prop where
  le : s.i ≤ n
  rest : s.num = num.tdiv (10 ^ s.i)
  digits : s.digits = setUpTo num old s.i

theorem setTurn_spec {num : Int} {old : List Int} {n : Nat} (hn : n ≤ old.length) (s : Setting)
    (h : Storing num old n s) :
    (∃ s', setTurn n s = .ok (.next s') ∧ Storing num old n s' ∧ n - s'.i < n - s.i) ∨
      ∃ s', setTurn n s = .ok (.done s') ∧ Storing num old n s' ∧ (s'.num = 0 ∨ s'.i = n) := by
  obtain ⟨hi, hnum, hdigits⟩ := h
  unfold setTurn
  by_cases hc : s.num ≠ 0 ∧ s.i < n
  · left
    have hdig := tmod_digit s.num
    have hat : s.num.tmod 10 = digitAt num s.i := by rw [hnum, digitAt]
    rw [if_pos hc, char_ok (show IsChar _ by unfold IsChar; omega), ok_bind, hdigits, hat,
      store_setUpTo (by omega), ok_bind]
    exact ⟨_, rfl, ⟨hc.2, by rw [hnum, tdiv_pow_succ], rfl⟩, by simp only; omega⟩
  · right
    rw [if_neg hc]
    exact ⟨s, rfl, ⟨hi, hnum, hdigits⟩, by omega⟩

/-- **What `bignum_set` does**: it stores the `len` low digits of `num`,
whether they are all of them or not. -/
theorem bignumSet_eq {b : BignumT} (h : b.len ≤ b.num.length) (num : Int) :
    bignumSet b num = .ok ({ b with num := setUpTo num b.num b.len }, if num.natAbs < 10 ^ b.len then 0 else -1) := by
  obtain ⟨s, hs, ⟨hi, hnum, hdigits⟩, hend⟩ := loop_total (fun s : Setting => b.len - s.i) (@setTurn_spec num _ _ h)
    (n := b.len + 1) (s := ⟨0, num, b.num⟩) ⟨Nat.zero_le _, by simp, by simp [setUpTo]⟩ (by simp only; omega)
  unfold bignumSet
  rw [hs, ok_bind]
  by_cases h0 : s.num = 0
  · -- The rest of `num` is 0, and so are the digits the second loop stores.
    have hfill : ∀ i ds, s.i ≤ i → i < s.i + (b.len - s.i) → ds = setUpTo num b.num i →
        ∃ ds', store ds i 0 = .ok ds' ∧ ds' = setUpTo num b.num (i + 1) := by
      rintro i ds hle hlt rfl
      have hstore := @store_setUpTo num b.num i (by omega)
      rw [digitAt_eq_zero (by rw [← hnum, h0]) hle] at hstore
      exact ⟨_, hstore, rfl⟩
    obtain ⟨ds, hf, rfl⟩ := forUp_total hfill hdigits
    have hlt : num.natAbs < 10 ^ b.len :=
      Nat.lt_of_lt_of_le (tdiv_pow_eq_zero_iff.1 (hnum.symm.trans h0)) (Nat.pow_le_pow_right (by decide) hi)
    rw [if_neg (by simp [h0]), hf, ok_bind, if_pos hlt, show s.i + (b.len - s.i) = b.len by omega]
  · have hlen : s.i = b.len := hend.resolve_left h0
    have hge : ¬ num.natAbs < 10 ^ b.len := fun hlt => h0 (by rw [hnum, hlen, tdiv_pow_eq_zero_iff.2 hlt])
    rw [if_pos h0, if_neg hge, hdigits, hlen]

/-- **Setting stores the number or says that it does not fit.** For a bignum
of any length and contents and any `num`: the result is 0 exactly when `num`
has at most `len` digits, and then the value is `num`; otherwise it is -1 and
the value is what the `len` low digits of `num` make. The digits have the sign
of `num`, and no cell from `len` on is written. -/
theorem bignumSet_stores {b : BignumT} (h : b.len ≤ b.num.length) (num : Int) :
    ∃ b' r, bignumSet b num = .ok (b', r) ∧ (r = 0 ↔ num.natAbs < 10 ^ b.len) ∧
      (r = 0 → value (b'.num.take b.len) = num) ∧
      (r ≠ 0 → r = -1 ∧ value (b'.num.take b.len) = num.tmod (10 ^ b.len)) ∧
      (∀ d ∈ b'.num.take b.len, -9 ≤ d ∧ d ≤ 9 ∧ (0 ≤ num → 0 ≤ d) ∧ (num ≤ 0 → d ≤ 0)) ∧
      b'.len = b.len ∧ b'.num.length = b.num.length ∧ b'.num.drop b.len = b.num.drop b.len := by
  have htake : (setUpTo num b.num b.len).take b.len = (List.range b.len).map (digitAt num) :=
    List.take_left' (by simp)
  have hdrop : (setUpTo num b.num b.len).drop b.len = b.num.drop b.len := List.drop_left' (by simp)
  have hvalue := value_digitAt num b.len
  refine ⟨_, _, bignumSet_eq h num, ?_, ?_, ?_, ?_, rfl, length_setUpTo h, hdrop⟩
  · split <;> simp_all
  · intro hr
    split at hr
    · next hlt =>
      have hrest := Int.mul_tdiv_add_tmod num (10 ^ b.len)
      rw [tdiv_pow_eq_zero_iff.2 hlt] at hrest
      rw [htake, hvalue]
      omega
    · omega
  · intro hr
    rw [htake, hvalue]
    split at hr
    · exact absurd rfl hr
    · next hge => exact ⟨if_neg hge, rfl⟩
  · intro d hd
    rw [htake, List.mem_map] at hd
    obtain ⟨k, -, rfl⟩ := hd
    exact digitAt_sign num k

/-- -1234 in two digits, over older ones and with a cell behind them. -/
theorem bignumSet_stores_sample :
    ∃ b' r, bignumSet ⟨2, [5, 6, 7]⟩ (-1234) = .ok (b', r) ∧ (r = 0 ↔ (-1234 : Int).natAbs < 10 ^ 2) ∧
      b'.num.drop 2 = [7] := by
  obtain ⟨b', r, hset, hr, -, -, -, -, -, hdrop⟩ := bignumSet_stores (b := ⟨2, [5, 6, 7]⟩) (by decide) (-1234)
  exact ⟨b', r, hset, hr, hdrop⟩

/-! ## Bignums built by the operations -/

theorem bignumAlloc_digits {lo len : Int} {b : BignumT} (hlo : lo ≤ 0) (h : bignumAlloc len = .ok b) : Ok lo b := by
  unfold bignumAlloc at h
  split at h
  · cases h
    exact ⟨List.length_replicate, digits_replicate_zero hlo _⟩
  · split at h <;> cases h

/-- Digits of `num`'s sign, so none below 0 if `num` is not. -/
theorem bignumSet_digits {lo num r : Int} {b b' : BignumT} (hlo : lo = -9 ∨ lo = 0 ∧ 0 ≤ num)
    (hb : b.num.length = b.len) (h : bignumSet b num = .ok (b', r)) : Ok lo b' := by
  rw [bignumSet_eq (by omega)] at h
  cases h
  refine ⟨by rw [length_setUpTo (by omega), hb], fun d hd => ?_⟩
  simp only [setUpTo, ← hb, List.drop_length, List.append_nil, List.mem_map] at hd
  obtain ⟨k, -, rfl⟩ := hd
  obtain ⟨h1, h2, h3, -⟩ := digitAt_sign num k
  rcases hlo with rfl | ⟨rfl, h0⟩
  · exact ⟨h1, h2⟩
  · exact ⟨h3 h0, h2⟩

theorem bignumMult_digits {lo : Int} {n1 n2 r : BignumT} (hlo : lo = 0 ∨ lo = -9) (h1 : Ok lo n1) (h2 : Ok lo n2)
    (h : bignumMult n1 n2 = .ok r) : Ok lo r := by
  have hlen : ((n1.len + n2.len + 1 : Nat) : Int) ≤ intMax := by
    by_contra hn
    unfold bignumMult at h
    rw [nat_overflow hn, error_bind] at h
    cases h
  obtain ⟨r', hr, -, hok, -⟩ := bignumMult_spec hlo h1 h2 hlen
  rw [hr] at h
  cases h
  exact hok

theorem Built.ok {b : BignumT} (h : Built b) : Ok (-9) b := by
  induction h with
  | alloc _ h => exact bignumAlloc_digits (by decide) h
  | set _ _ h ih => exact bignumSet_digits (.inl rfl) ih.length h
  | mult _ _ h ih1 ih2 => exact bignumMult_digits (.inr rfl) ih1 ih2 h

/-- **Multiplication is exact.** For operands built by the operations whose
product's length is an `int`, `bignum_mult` ends without a fault (every value
it stores into a digit fits 8 bits, every index is within the result), its
value is the product, and its digits are in `[-9, 9]`, in `[0, 9]` when both
operands' are. -/
theorem bignumMult_exact {n1 n2 : BignumT} (h1 : Built n1) (h2 : Built n2)
    (hlen : ((n1.len + n2.len + 1 : Nat) : Int) ≤ intMax) :
    ∃ r, bignumMult n1 n2 = .ok r ∧ r.len = n1.len + n2.len + 1 ∧ r.num.length = r.len ∧
      value r.num = value n1.num * value n2.num ∧ Digits (-9) r.num ∧
      (Digits 0 n1.num → Digits 0 n2.num → Digits 0 r.num) := by
  obtain ⟨r, hr, hl, hok, hv⟩ := bignumMult_spec (.inr rfl) h1.ok h2.ok hlen
  refine ⟨r, hr, hl, hok.length, hv, hok.digits, fun hd1 hd2 => ?_⟩
  obtain ⟨r', hr', -, hok', -⟩ := bignumMult_spec (.inl rfl) ⟨h1.ok.length, hd1⟩ ⟨h2.ok.length, hd2⟩ hlen
  rw [hr] at hr'
  cases hr'
  exact hok'.digits

theorem bignumMult_exact_sample : ∃ r, bignumMult ⟨2, [9, 1]⟩ ⟨1, [-7]⟩ = .ok r ∧ value r.num = -133 := by
  have h1 : Built ⟨2, [9, 1]⟩ :=
    .set (b := ⟨2, [0, 0]⟩) (.alloc (show IsInt 2 by decide) (by rfl)) (show IsInt 19 by decide) (by rfl)
  have h2 : Built ⟨1, [-7]⟩ :=
    .set (b := ⟨1, [0]⟩) (.alloc (show IsInt 1 by decide) (by rfl)) (show IsInt (-7) by decide) (by rfl)
  obtain ⟨r, hr, -, -, hv, -⟩ := bignumMult_exact h1 h2 (by decide)
  exact ⟨r, hr, hv.trans (by decide)⟩

/-- Two operands of `2^30` digits: the product's length is no `int`. -/
theorem bignumMult_length_overflow :
    ∃ b, bignumAlloc (2 ^ 30) = .ok b ∧ Built b ∧ bignumMult b b = .error .overflow ∧
      ¬ ∃ r, bignumMult b b = .ok r ∧ value r.num = value b.num * value b.num := by
  have ha := bignumAlloc_ok (show (0 : Int) ≤ 2 ^ 30 by decide)
  have hm : ∀ b : BignumT, b.len = ((2 : Int) ^ 30).toNat → bignumMult b b = .error .overflow := by
    intro b hb
    unfold bignumMult
    rw [nat_overflow (by rw [hb]; decide), error_bind]
  refine ⟨_, ha, .alloc (by decide) ha, hm _ rfl, ?_⟩
  intro hexists
  obtain ⟨r, hr, -⟩ := hexists
  rw [hm _ rfl] at hr
  cases hr

end SugarNSpice.Bignum
