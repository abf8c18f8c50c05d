/-
What `gen_brackets` prints: the balanced strings, each once, in order.

`brackets` is the same recursion without the buffer. The code's calls print
its strings behind what the buffer holds before `i` (`genBrackets_ok`), and
leave that part alone, so the second call finds it as the first did. That the
strings are the balanced ones, and in order, is then said of `brackets`.
-/
import SugarNSpice.Brackets

namespace SugarNSpice.Brackets

open CLang

/-! ## The strings -/

/-- A string that closes `r` brackets and opens `l` of them, and at no point
has closed more than were open, `r - l` of them from before. -/
structure Completes (l r : Nat) (s : List Char) : Prop where
  chars : ∀ c ∈ s, c = '(' ∨ c = ')'
  opens : s.count '(' = l
  closes : s.count ')' = r
  depth : ∀ t, t <+: s → t.count ')' + l ≤ t.count '(' + r

/-- A balanced string of `n` pairs of brackets: at no point have more been
closed than opened, and at the end as many. -/
structure Balanced (n : Nat) (s : List Char) : Prop where
  chars : ∀ c ∈ s, c = '(' ∨ c = ')'
  opens : s.count '(' = n
  closes : s.count ')' = n
  depth : ∀ t, t <+: s → t.count ')' ≤ t.count '('

theorem completes_iff_balanced {n : Nat} {s : List Char} : Completes n n s ↔ Balanced n s := by
  constructor
  · intro h
    exact ⟨h.chars, h.opens, h.closes, fun t ht => by have := h.depth t ht; omega⟩
  · intro h
    exact ⟨h.chars, h.opens, h.closes, fun t ht => by have := h.depth t ht; omega⟩

theorem completes_nil {r : Nat} : Completes 0 r [] ↔ r = 0 := by
  constructor
  · intro h
    simpa using h.closes.symm
  · intro h
    subst h
    exact ⟨nofun, rfl, rfl, fun t ht => by simp [List.prefix_nil.1 ht]⟩

theorem completes_open {l r : Nat} {s : List Char} (hlr : l + 1 ≤ r) :
    Completes (l + 1) r ('(' :: s) ↔ Completes l r s := by
  constructor
  · intro h
    refine ⟨fun c hc => h.chars c (.tail _ hc), by simpa using h.opens, by simpa using h.closes, fun t ht => ?_⟩
    have := h.depth ('(' :: t) (by simpa using ht)
    simp at this
    omega
  · intro h
    refine ⟨by simpa using h.chars, by simp [h.opens], by simp [h.closes], fun t ht => ?_⟩
    rcases List.prefix_cons_iff.1 ht with rfl | ⟨t', rfl, ht'⟩
    · simpa using hlr
    · have hrest := h.depth t' ht'
      simp
      omega

theorem completes_close {l r : Nat} {s : List Char} (hlr : l ≤ r + 1) :
    Completes l (r + 1) (')' :: s) ↔ l ≤ r ∧ Completes l r s := by
  constructor
  · intro h
    have hfirst := h.depth [')'] (by simp)
    simp at hfirst
    refine ⟨by omega, fun c hc => h.chars c (.tail _ hc), by simpa using h.opens, by simpa using h.closes,
      fun t ht => ?_⟩
    have := h.depth (')' :: t) (by simpa using ht)
    simp at this
    omega
  · intro ⟨hle, h⟩
    refine ⟨by simpa using h.chars, by simp [h.opens], by simp [h.closes], fun t ht => ?_⟩
    rcases List.prefix_cons_iff.1 ht with rfl | ⟨t', rfl, ht'⟩
    · simpa using hlr
    · have hrest := h.depth t' ht'
      simp
      omega

/-- The strings `gen_brackets` is to print, `l` brackets to open and `r` to
close. -/
def brackets (l r : Nat) : List (List Char) :=
  match l with
  | 0 => [List.replicate r ')']
  | l + 1 => (brackets l r).map ('(' :: ·) ++
      if l + 1 < r then (brackets (l + 1) (r - 1)).map (')' :: ·) else []
termination_by l + r

theorem brackets_both {l r : Nat} (h : l + 1 < r) :
    brackets (l + 1) r = (brackets l r).map ('(' :: ·) ++ (brackets (l + 1) (r - 1)).map (')' :: ·) := by
  rw [brackets, if_pos h]

theorem brackets_open {l r : Nat} (h : ¬ l + 1 < r) : brackets (l + 1) r = (brackets l r).map ('(' :: ·) := by
  rw [brackets, if_neg h, List.append_nil]

theorem completes_zero {r : Nat} {s : List Char} : Completes 0 r s ↔ s = List.replicate r ')' := by
  induction s generalizing r with
  | nil => cases r <;> simp [completes_nil, List.replicate_succ]
  | cons c s ih =>
    constructor
    · intro h
      have hopen := h.opens
      rcases h.chars c (.head _) with rfl | rfl
      · simp at hopen
      · obtain ⟨r, rfl⟩ : ∃ r', r = r' + 1 := ⟨s.count ')', by simpa using h.closes.symm⟩
        rw [ih.1 ((completes_close (by omega)).1 h).2]
        rfl
    · intro h
      cases r with
      | zero => exact absurd h (by simp)
      | succ r =>
        obtain ⟨rfl, hs⟩ := List.cons.inj h
        exact (completes_close (by omega)).2 ⟨by omega, ih.2 hs⟩

theorem completes_succ {l r : Nat} (hlr : l + 1 ≤ r) {s : List Char} :
    Completes (l + 1) r s ↔ (∃ t, Completes l r t ∧ '(' :: t = s) ∨
      l + 1 < r ∧ ∃ t, Completes (l + 1) (r - 1) t ∧ ')' :: t = s := by
  obtain ⟨r, rfl⟩ : ∃ r', r = r' + 1 := ⟨r - 1, by omega⟩
  constructor
  · intro h
    cases s with
    | nil => exact absurd h.opens (by simp)
    | cons c t =>
      rcases h.chars c (.head _) with rfl | rfl
      · exact .inl ⟨t, (completes_open hlr).1 h, rfl⟩
      · obtain ⟨hle, ht⟩ := (completes_close hlr).1 h
        exact .inr ⟨by omega, t, ht, rfl⟩
  · intro h
    rcases h with ⟨t, ht, rfl⟩ | ⟨hlt, t, ht, rfl⟩
    · exact (completes_open hlr).2 ht
    · exact (completes_close hlr).2 ⟨by omega, ht⟩

theorem mem_brackets_succ {l r : Nat} {s : List Char} :
    s ∈ brackets (l + 1) r ↔ (∃ t ∈ brackets l r, '(' :: t = s) ∨
      l + 1 < r ∧ ∃ t ∈ brackets (l + 1) (r - 1), ')' :: t = s := by
  by_cases hlt : l + 1 < r
  · rw [brackets_both hlt, List.mem_append, List.mem_map, List.mem_map, and_iff_right hlt]
  · rw [brackets_open hlt, List.mem_map]
    simp [hlt]

/-- **Sound and complete**: `brackets` lists the strings that complete. -/
theorem mem_brackets {l r : Nat} (hlr : l ≤ r) {s : List Char} : s ∈ brackets l r ↔ Completes l r s := by
  induction l, r using brackets.induct generalizing s with
  | case1 r => rw [brackets, completes_zero, List.mem_singleton]
  | case2 r l ihOpen ihClose =>
    have hopen : ∀ {t}, t ∈ brackets l r ↔ Completes l r t := ihOpen (by omega)
    rw [mem_brackets_succ, completes_succ hlr]
    simp only [hopen]
    refine or_congr_right (and_congr_right fun hlt => ?_)
    simp only [ihClose hlt (by omega)]

/-- **In order**: '(' comes before ')'. -/
theorem brackets_sorted (l r : Nat) : (brackets l r).Pairwise (· < ·) := by
  induction l, r using brackets.induct with
  | case1 r => simp [brackets]
  | case2 r l ihOpen ihClose =>
    have hcons : ∀ (c : Char) {ss : List (List Char)}, ss.Pairwise (· < ·) → (ss.map (c :: ·)).Pairwise (· < ·) := by
      intro c ss h
      exact List.pairwise_map.2 (h.imp fun hlt => List.cons_lt_cons_iff.2 (.inr ⟨rfl, hlt⟩))
    by_cases hlt : l + 1 < r
    · rw [brackets_both hlt]
      refine List.pairwise_append.2 ⟨hcons _ ihOpen, hcons _ (ihClose hlt), fun s hs t ht => ?_⟩
      obtain ⟨s', -, rfl⟩ := List.mem_map.1 hs
      obtain ⟨t', -, rfl⟩ := List.mem_map.1 ht
      exact List.cons_lt_cons_iff.2 (.inl (by decide))
    · rw [brackets_open hlt]
      exact hcons _ ihOpen

/-! ## The code -/

theorem printed_append {s : List Char} (hs : nul ∉ s) (rest : List Char) : printed (s ++ nul :: rest) = .ok s := by
  induction s with
  | nil => simp [printed]
  | cons c s ih =>
    obtain ⟨hc, hs⟩ := List.ne_and_not_mem_of_not_mem_cons hs
    simp [printed, Ne.symm hc, ih hs]

theorem store_append (pre : List Char) (c x : Char) (rest : List Char) :
    store (pre ++ c :: rest) pre.length x = .ok (pre ++ [x] ++ rest) := by
  rw [store_ok (by simp)]
  simp

theorem closeAll_ok {r : Nat} {pre rest : List Char} (hroom : r ≤ rest.length)
    (hint : ((pre.length + r : Nat) : Int) ≤ intMax) :
    closeAll (pre ++ rest) pre.length r =
      .ok (pre ++ List.replicate r ')' ++ rest.drop r, pre.length + r) := by
  induction r generalizing pre rest with
  | zero => simp [closeAll]
  | succ r ih =>
    obtain ⟨c, rest, rfl⟩ := List.exists_cons_of_length_pos (Nat.lt_of_lt_of_le r.succ_pos hroom)
    simp only [List.length_cons] at hroom
    have hnext : pre.length + 1 = (pre ++ [')']).length := by simp
    rw [closeAll, store_append, ok_bind, nat_ok (by omega), ok_bind, hnext,
      ih (by omega) (by rw [← hnext]; omega)]
    simp [List.replicate_succ, Nat.add_assoc, Nat.add_comm 1 r]

theorem genBrackets_closes {r : Nat} {pre rest : List Char} (hpre : nul ∉ pre) (hroom : r < rest.length)
    (hint : ((pre.length + r : Nat) : Int) ≤ intMax) :
    ∃ rest', genBrackets (pre ++ rest) pre.length 0 r = .ok (pre ++ rest', (brackets 0 r).map (pre ++ ·)) ∧
      rest'.length = rest.length := by
  obtain ⟨c, after, hafter⟩ := List.exists_cons_of_length_pos (l := rest.drop r)
    (by rw [List.length_drop]; omega)
  have hclosed : closeAll (pre ++ rest) pre.length r =
      .ok (pre ++ List.replicate r ')' ++ rest.drop r, pre.length + r) := closeAll_ok (by omega) (by simpa using hint)
  have hlen : pre.length + r = (pre ++ List.replicate r ')').length := by simp
  have hnul : nul ∉ pre ++ List.replicate r ')' := by
    simp only [List.mem_append, List.mem_replicate, not_or, not_and]
    exact ⟨hpre, fun _ => by decide⟩
  refine ⟨List.replicate r ')' ++ nul :: after, ?_, ?_⟩
  · rw [genBrackets, hclosed, ok_bind]
    simp only
    rw [hafter, hlen, store_append, ok_bind, List.append_assoc _ [nul], List.singleton_append,
      printed_append hnul, ok_bind]
    simp [brackets]
  · have := congrArg List.length hafter
    simp only [List.length_drop, List.length_append, List.length_replicate, List.length_cons] at this ⊢
    omega

/-- **One call**: it prints the strings behind what the buffer holds before
`i`, and leaves that as it was. -/
theorem genBrackets_ok {l r : Nat} {pre rest : List Char} (hpre : nul ∉ pre) (hroom : l + r < rest.length)
    (hint : ((pre.length + l + r : Nat) : Int) ≤ intMax) :
    ∃ rest', genBrackets (pre ++ rest) pre.length l r = .ok (pre ++ rest', (brackets l r).map (pre ++ ·)) ∧
      rest'.length = rest.length := by
  induction l, r using brackets.induct generalizing pre rest with
  | case1 r => exact genBrackets_closes hpre (by omega) (by simpa using hint)
  | case2 r l ihOpen ihClose =>
    obtain ⟨c, rest, rfl⟩ := List.exists_cons_of_length_pos (Nat.zero_lt_of_lt hroom)
    simp only [List.length_cons] at hroom
    have hopenLen : pre.length + 1 = (pre ++ ['(']).length := by simp
    have hcloseLen : pre.length + 1 = (pre ++ [')']).length := by simp
    have hnat : nat (pre.length + 1) = .ok (pre.length + 1) := nat_ok (by omega)
    obtain ⟨rest₁, hfirst, hlen₁⟩ := @ihOpen (pre ++ ['(']) rest (by simpa [hpre] using by decide)
      (by omega) (by rw [← hopenLen]; omega)
    rw [← hopenLen] at hfirst
    rw [genBrackets, store_append, ok_bind, hnat, ok_bind, hfirst, ok_bind]
    simp only
    split
    next hlt =>
      -- What the first call left in the cell is written over.
      obtain ⟨rest₂, hsecond, hlen₂⟩ := @ihClose hlt (pre ++ [')']) rest₁
        (by simpa [hpre] using by decide) (by omega) (by rw [← hcloseLen]; omega)
      rw [← hcloseLen] at hsecond
      rw [List.append_assoc pre, List.singleton_append, store_append, ok_bind, ok_bind, hsecond, ok_bind]
      refine ⟨')' :: rest₂, ?_, by simp [hlen₁, hlen₂]⟩
      rw [brackets_both hlt]
      simp [List.map_map, Function.comp_def]
    next hlt =>
      refine ⟨'(' :: rest₁, ?_, by simp [hlen₁]⟩
      rw [brackets_open hlt]
      simp [List.map_map, Function.comp_def]

/-- **Every balanced string once, and nothing else, in order**: in a buffer of
`2 * n + 1` bytes, whatever it holds. -/
theorem genBrackets_balanced {n : Nat} (hn : ((2 * n : Nat) : Int) ≤ intMax) {bracketStr : List Char}
    (hlen : bracketStr.length = 2 * n + 1) :
    ∃ after lines, genBrackets bracketStr 0 n n = .ok (after, lines) ∧ after.length = 2 * n + 1 ∧
      (∀ s, s ∈ lines ↔ Balanced n s) ∧ lines.Nodup ∧ lines.Pairwise (· < ·) := by
  obtain ⟨after, hrun, hafter⟩ := @genBrackets_ok n n [] bracketStr List.not_mem_nil (by omega)
    (by simpa [← Nat.two_mul] using hn)
  have hsorted := brackets_sorted n n
  refine ⟨after, brackets n n, by simpa using hrun, hafter.trans hlen, fun s => ?_, ?_, hsorted⟩
  · exact (mem_brackets (Nat.le_refl n)).trans completes_iff_balanced
  · refine hsorted.imp ?_
    intro s t hlt heq
    subst heq
    exact List.lt_irrefl s hlt

theorem genBrackets_balanced_two :
    ∃ after lines, genBrackets (List.replicate 5 nul) 0 2 2 = .ok (after, lines) ∧ after.length = 2 * 2 + 1 ∧
      (∀ s, s ∈ lines ↔ Balanced 2 s) ∧ lines.Nodup ∧ lines.Pairwise (· < ·) :=
  genBrackets_balanced (by decide) (List.length_replicate ..)

/-- `main` asks for enough and gets them all, where its own arithmetic on the
number is that of an `int`. -/
theorem run_balanced {n : Nat} (hn : ((2 * n + 1 : Nat) : Int) ≤ intMax) :
    ∃ lines, run n = .ok lines ∧ ∀ s, s ∈ lines ↔ Balanced n s := by
  obtain ⟨after, lines, hrun, -, hmem, -⟩ := genBrackets_balanced (n := n) (by omega)
    (List.length_replicate (n := 2 * n + 1) (a := nul))
  refine ⟨lines, ?_, hmem⟩
  rw [run, Nat.mul_comm, nat_ok (by omega), ok_bind, nat_ok hn, ok_bind, hrun, ok_bind]

/-! ## Too many brackets -/

theorem closeAll_overflow {r : Nat} {pre rest : List Char} (hroom : r ≤ rest.length)
    (hpre : (pre.length : Int) ≤ intMax) (hint : intMax < ((pre.length + r : Nat) : Int)) :
    closeAll (pre ++ rest) pre.length r = .error .overflow := by
  induction r generalizing pre rest with
  | zero => exact absurd hint (by simpa using hpre)
  | succ r ih =>
    obtain ⟨c, rest, rfl⟩ := List.exists_cons_of_length_pos (Nat.lt_of_lt_of_le r.succ_pos hroom)
    simp only [List.length_cons] at hroom
    have hnext : pre.length + 1 = (pre ++ [')']).length := by simp
    rw [closeAll, store_append, ok_bind]
    by_cases hmax : ((pre.length + 1 : Nat) : Int) ≤ intMax
    · rw [nat_ok hmax, ok_bind, hnext]
      exact ih (by omega) (by rwa [← hnext]) (by rw [← hnext]; omega)
    · rw [nat_overflow hmax, error_bind]

/-- Where the strings are longer than an `int` counts, the first one is not
finished. -/
theorem genBrackets_overflow {l r : Nat} {pre rest : List Char} (hroom : l + r < rest.length)
    (hpre : (pre.length : Int) ≤ intMax) (hint : intMax < ((pre.length + l + r : Nat) : Int)) :
    genBrackets (pre ++ rest) pre.length l r = .error .overflow := by
  induction l generalizing pre rest with
  | zero => rw [genBrackets, closeAll_overflow (by omega) hpre (by simpa using hint), error_bind]
  | succ l ih =>
    obtain ⟨c, rest, rfl⟩ := List.exists_cons_of_length_pos (Nat.zero_lt_of_lt hroom)
    simp only [List.length_cons] at hroom
    have hnext : pre.length + 1 = (pre ++ ['(']).length := by simp
    rw [genBrackets, store_append, ok_bind]
    by_cases hmax : ((pre.length + 1 : Nat) : Int) ≤ intMax
    · rw [nat_ok hmax, ok_bind, hnext, ih (by omega) (by rwa [← hnext]) (by rw [← hnext]; omega), error_bind]
    · rw [nat_overflow hmax, error_bind]

theorem genBrackets_two_pow_thirty :
    genBrackets (List.replicate (2 * 2 ^ 30 + 1) nul) 0 (2 ^ 30) (2 ^ 30) = .error .overflow := by
  have hroom : 2 ^ 30 + 2 ^ 30 < (List.replicate (2 * 2 ^ 30 + 1) nul).length := by
    rw [List.length_replicate]
    omega
  exact @genBrackets_overflow _ _ [] _ hroom (by decide) (by decide)

end SugarNSpice.Brackets
