/-
What `bignum_print` prints.

Its loop starts at `num->len`, one past the most significant digit, so it
always reads the byte behind the bignum's block and prints that first. The
digits after it are the number's (`ofDigitChars_printed`); what is printed is
the number exactly where that byte happens to be 0.
-/
import SugarNSpice.BignumFacts

namespace SugarNSpice.Bignum

open CLang

/-- `text` is a decimal numeral for `v`, leading zeros allowed. -/
def Numeral (text : List Char) (v : Int) : Prop :=
  text ≠ [] ∧ (∀ c ∈ text, c.isDigit = true) ∧ (Nat.ofDigitChars 10 text 0 : Int) = v

/-- The bignum is printed as a numeral for its value, from its own cells. -/
def PrintsNumber (b : BignumT) (behind : List Int) : Prop :=
  ∃ text reads, bignumPrint b behind = .ok ⟨text ++ ['\n'], reads⟩ ∧ Numeral text (value b.num) ∧
    ∀ i ∈ reads, i < b.len

theorem BuiltNat.ok {b : BignumT} (h : BuiltNat b) : Ok 0 b := by
  induction h with
  | alloc _ h => exact bignumAlloc_digits (by decide) h
  | set _ _ h0 h ih => exact bignumSet_digits (.inr ⟨rfl, h0⟩) ih.length h
  | mult _ _ h ih1 ih2 => exact bignumMult_digits (.inl rfl) ih1 ih2 h

/-! ## The loop -/

theorem printDown_spec {mem : List Int} {i : Nat} (h : i < mem.length) (p : Printing) :
    printDown mem i p =
      .ok ⟨p.text ++ (mem.take (i + 1)).reverse.flatMap printfInt, p.reads ++ (List.range (i + 1)).reverse⟩ := by
  induction i generalizing p with
  | zero =>
    rw [printDown, printDigit, load_ok h, ok_bind, List.take_succ_eq_append_getElem h]
    simp
  | succ i ih =>
    rw [printDown, printDigit, load_ok h, ok_bind, ok_bind, ih (by omega), List.take_succ_eq_append_getElem h,
      @List.range_succ (i + 1), List.reverse_append, List.reverse_append, List.flatMap_append]
    simp only [List.reverse_singleton, List.flatMap_singleton, List.singleton_append, List.append_assoc]

theorem printDown_lt {mem : List Int} {i : Nat} {p q : Printing} (h : printDown mem i p = .ok q) : i < mem.length := by
  have hcell : ∀ {r}, printDigit mem i p = .ok r → i < mem.length := by
    intro r hr
    obtain ⟨c, hc, -⟩ := bind_ok_iff.1 hr
    exact (List.getElem?_eq_some_iff.1 (load_ok_iff.1 hc)).1
  cases i with
  | zero => exact hcell h
  | succ i =>
    obtain ⟨r, hr, -⟩ := bind_ok_iff.1 h
    exact hcell hr

/-! ## The text -/

theorem printfInt_nonneg {c : Int} (h : 0 ≤ c) : printfInt c = Nat.toDigits 10 c.natAbs := if_neg (by omega)

theorem ofDigitChars_printed {num : List Int} (h : Digits 0 num) (k : Nat) :
    (Nat.ofDigitChars 10 (num.reverse.flatMap printfInt) k : Int) = k * 10 ^ num.length + value num := by
  induction num with
  | nil => simp
  | cons d ds ih =>
    have hd := h d List.mem_cons_self
    have hds : Digits 0 ds := fun x hx => h x (List.mem_cons_of_mem _ hx)
    have htext : (d :: ds).reverse.flatMap printfInt = ds.reverse.flatMap printfInt ++ [d.natAbs.digitChar] := by
      rw [List.reverse_cons, List.flatMap_append, List.flatMap_singleton, printfInt_nonneg hd.1,
        Nat.toDigits_of_lt_base (by omega)]
    rw [htext, Nat.ofDigitChars_append, Nat.ofDigitChars_cons_digitChar_of_lt_ten (by omega), Nat.ofDigitChars_nil,
      Nat.cast_add, Nat.cast_mul, ih hds, value_cons, List.length_cons, pow_succ, Int.natAbs_of_nonneg hd.1]
    push_cast
    ring

theorem isDigit_printed {num : List Int} (h : ∀ d ∈ num, 0 ≤ d) :
    ∀ c ∈ num.reverse.flatMap printfInt, c.isDigit = true := by
  intro c hc
  rw [List.mem_flatMap] at hc
  obtain ⟨d, hd, hc⟩ := hc
  rw [printfInt_nonneg (h d (List.mem_reverse.1 hd))] at hc
  exact Nat.isDigit_of_mem_toDigits (by decide) (by decide) hc

/-- The number with `c` printed before it is a numeral for the number only if
`c` is 0. -/
theorem numeral_printed_iff {num : List Int} (h : Digits 0 num) (c : Int) :
    Numeral (printfInt c ++ num.reverse.flatMap printfInt) (value num) ↔ c = 0 := by
  unfold Numeral
  by_cases hc : c < 0
  · -- A minus sign is no digit.
    refine ⟨fun hn => absurd (hn.2.1 '-' ?_) (by decide), fun h0 => by omega⟩
    rw [printfInt, if_pos hc]
    exact List.mem_cons_self
  · have hval : (Nat.ofDigitChars 10 (printfInt c ++ num.reverse.flatMap printfInt) 0 : Int) =
        c * 10 ^ num.length + value num := by
      rw [Nat.ofDigitChars_append, ofDigitChars_printed h, printfInt_nonneg (by omega),
        Nat.ofDigitChars_toDigits (by decide) (by decide), Int.natAbs_of_nonneg (by omega)]
    have hdigit : ∀ x ∈ printfInt c ++ num.reverse.flatMap printfInt, x.isDigit = true := by
      intro x hx
      rcases List.mem_append.1 hx with hx | hx
      · rw [printfInt_nonneg (by omega)] at hx
        exact Nat.isDigit_of_mem_toDigits (by decide) (by decide) hx
      · exact isDigit_printed (fun d hd => (h d hd).1) x hx
    have hne : printfInt c ++ num.reverse.flatMap printfInt ≠ [] := by
      rw [printfInt_nonneg (by omega)]
      simp
    have hpow : (10 : Int) ^ num.length ≠ 0 := by positivity
    rw [hval, and_iff_right hne, and_iff_right hdigit, add_eq_right, mul_eq_zero, or_iff_left hpow]

/-! ## The whole function -/

/-- **`bignum_print` never keeps to the number's own cells.** For every bignum
built from non-negative numbers: it reads `num->num[len]`, which is not one of
them, and prints what it finds there first; the text is a numeral for the
number exactly when that is 0. -/
theorem bignumPrint_reads_past {b : BignumT} (h : BuiltNat b) (behind : List Int) :
    ¬ PrintsNumber b behind ∧
      ∀ c rest, behind = c :: rest →
        ∃ text reads, bignumPrint b behind = .ok ⟨text ++ ['\n'], reads⟩ ∧ b.len ∈ reads ∧
          (Numeral text (value b.num) ↔ c = 0) := by
  have hlen := h.ok.length
  constructor
  · intro hprints
    obtain ⟨text, reads, hprint, -, hreads⟩ := hprints
    obtain ⟨p, hdown, hp⟩ := bind_ok_iff.1 hprint
    rw [printDown_spec (printDown_lt hdown)] at hdown
    cases hdown
    simp only [Except.ok.injEq, Printing.mk.injEq, List.nil_append] at hp
    have hself := hreads b.len (by rw [← hp.2]; simp)
    omega
  · rintro c rest rfl
    have hlt : b.len < (b.num ++ c :: rest).length := by simp only [List.length_append, List.length_cons]; omega
    have htake : (b.num ++ c :: rest).take (b.len + 1) = b.num ++ [c] := by
      rw [← hlen, List.take_length_add_append, List.take_succ_cons, List.take_zero]
    refine ⟨printfInt c ++ b.num.reverse.flatMap printfInt, (List.range (b.len + 1)).reverse, ?_, by simp,
      numeral_printed_iff h.ok.digits c⟩
    unfold bignumPrint
    rw [printDown_spec hlt, ok_bind, htake, List.reverse_append]
    simp

theorem builtNat_five : BuiltNat ⟨1, [5]⟩ :=
  .set (b := ⟨1, [0]⟩) (.alloc (show IsInt 1 by decide) (by rfl)) (show IsInt 5 by decide) (by decide) (by rfl)

/-- 5 in one cell, a 7 behind it: "75" is printed. -/
theorem bignumPrint_prints_behind :
    BuiltNat ⟨1, [5]⟩ ∧ bignumPrint ⟨1, [5]⟩ [7] = .ok ⟨['7', '5', '\n'], [1, 0]⟩ ∧ ¬ PrintsNumber ⟨1, [5]⟩ [7] := by
  have hprint : bignumPrint ⟨1, [5]⟩ [7] = .ok ⟨['7', '5', '\n'], [1, 0]⟩ := by decide
  refine ⟨builtNat_five, hprint, fun h => ?_⟩
  obtain ⟨text, reads, hp, -, hreads⟩ := h
  rw [hprint] at hp
  simp only [Except.ok.injEq, Printing.mk.injEq] at hp
  exact absurd (hreads 1 (by rw [← hp.2]; decide)) (by decide)

theorem bignumPrint_reads_past_sample : ¬ PrintsNumber ⟨1, [5]⟩ [0] := (bignumPrint_reads_past builtNat_five [0]).1

end SugarNSpice.Bignum
