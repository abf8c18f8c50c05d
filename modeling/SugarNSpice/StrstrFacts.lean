/-
When `my_strstr` finds the first occurrence.

The table its first loop computes is `weakBorder`: always the length of a
border of the pattern's prefix, but with no second try at a shorter one, so
not always of the longest. The search compares from one place after another
(`Visits`): from a place with `q` characters matched it goes on to `jump`,
which skips a character too many for `q = 1` and trusts the table for
`q ≥ 2`. So it answers for the first place it visits where the pattern occurs
(`Scanned`), and only where the string goes on after it; and its answer is
right exactly when that is the first occurrence, or there is none.
-/
import SugarNSpice.Strstr
import SugarNSpice.Matching

namespace SugarNSpice.Strstr

open CLang Matching

/-! ## Strings in memory -/

theorem strlen_append_nul {l : List (BitVec 8)} (h : 0 ∉ l) : strlen (l ++ [0]) = .ok l.length := by
  induction l with
  | nil => rfl
  | cons c l ih =>
    rw [List.mem_cons, not_or] at h
    simp only [List.cons_append, strlen, if_neg (Ne.symm h.1), ih h.2, ok_bind, List.length_cons]

theorem strlen_mem (s : CString) : strlen s.mem = .ok s.bytes.length := strlen_append_nul s.nulFree

theorem load_mem {s : CString} {i : Nat} (h : i < s.bytes.length) : load s.mem i = .ok s.bytes[i] := by
  rw [load_ok_iff, CString.mem, List.getElem?_append_left h, List.getElem?_eq_getElem h]

/-- `strncmp` with as many characters as `v` has, on memory that is as long or
has a NUL to stop at. -/
theorem strncmpEq_spec {v rest : List (BitVec 8)} (hv : 0 ∉ v) :
    ∀ {u : List (BitVec 8)}, v.length ≤ u.length ∨ 0 ∈ u →
      strncmpEq u (v ++ rest) v.length = .ok (decide (v <+: u)) := by
  induction v with
  | nil => intro u _; simp [strncmpEq]
  | cons d v ih =>
    intro u hu
    cases u with
    | nil => simp at hu
    | cons c u =>
      rw [List.mem_cons, not_or] at hv
      simp only [List.cons_append, List.length_cons, strncmpEq]
      by_cases he : c = d
      · subst he
        rw [List.mem_cons, or_iff_right hv.1] at hu
        rw [if_neg (by simp), if_neg (Ne.symm hv.1), ih hv.2 (by simpa using hu)]
        simp [List.cons_prefix_cons]
      · rw [if_pos he]
        simp [List.cons_prefix_cons, Ne.symm he]

/-! ## Lengths kept in an `int` -/

theorem toInt_eq {n : Nat} (h : (n : Int) ≤ intMax) : toInt n = n := by
  unfold intMax at h
  exact toInt_ofNat_of_lt (by omega)

theorem toInt_lt {n : Nat} (h : ¬ (n : Int) ≤ intMax) : (toInt n).toNat < n := by
  have hle := (isInt_toInt (BitVec.ofNat 32 n)).2
  unfold intMax at h hle
  unfold toInt
  omega

theorem myStrstrCut_eq {s t : CString} (hs : (s.bytes.length : Int) ≤ intMax) (ht : (t.bytes.length : Int) ≤ intMax)
    (junk : Nat → Nat) : myStrstrCut s.mem t.mem junk = myStrstr s.mem t.mem junk := by
  unfold myStrstrCut myStrstr
  simp only [strlen_mem, ok_bind, toInt_eq hs, toInt_eq ht, nat_ok hs, nat_ok ht, Int.toNat_natCast, gt_iff_lt,
    Int.ofNat_lt]

/-! ## The table -/

/-- The border length the first loop puts at `i`: the one before it extended
by a character, or none. -/
def weakBorder (t : List (BitVec 8)) : Nat → Nat
  | 0 => 0
  | i + 1 => if t[i + 1]? = t[weakBorder t i]? then weakBorder t i + 1 else 0

theorem weakBorder_le (t : List (BitVec 8)) (i : Nat) : weakBorder t i ≤ i := by
  induction i with
  | zero => exact Nat.le_refl 0
  | succ i ih =>
    rw [weakBorder]
    split <;> omega

theorem take_succ_eq {t : List (BitVec 8)} {i : Nat} (h : i < t.length) : t.take (i + 1) = t.take i ++ [t[i]] :=
  List.take_succ_eq_append_getElem h

theorem isBorder_weakBorder {t : List (BitVec 8)} {i : Nat} (h : i < t.length) : IsBorder t i (weakBorder t i) := by
  induction i with
  | zero => exact isBorder_zero t 0
  | succ i ih =>
    rw [weakBorder]
    split
    · next he => exact (isBorder_succ_iff h).2 ⟨ih (by omega), he.symm⟩
    · exact isBorder_zero t (i + 1)

theorem longestBorder_weakBorder {t : List (BitVec 8)} (ht : NeedsNoShorter t) {i : Nat} (h : i < t.length) :
    LongestBorder t i (weakBorder t i) := by
  refine ⟨isBorder_weakBorder h, ?_⟩
  induction i with
  | zero => exact fun j hj => hj.1
  | succ i ih =>
    have hlongest : LongestBorder t i (weakBorder t i) := ⟨isBorder_weakBorder (by omega), ih (by omega)⟩
    intro j hj
    cases j with
    | zero => exact Nat.zero_le _
    | succ j =>
      obtain ⟨hborder, hext⟩ := (isBorder_succ_iff h).1 hj
      have hsame := ht i _ j h hlongest hborder hext
      rw [weakBorder, if_pos hsame.symm]
      exact Nat.succ_le_succ (ih (by omega) j hborder)

/-- The table so far, and `j` the border it ends with. -/
structure Filling (t : List (BitVec 8)) (i : Nat) (x : Nat × List Nat) : Prop where
  length : x.2.length = t.length
  cells : ∀ k < i, x.2[k]? = some (weakBorder t k)
  j : x.1 = weakBorder t (i - 1)

theorem overlapTurn_filling {t : CString} {i : Nat} {x : Nat × List Nat} (hi : 1 ≤ i) (hlt : i < t.bytes.length)
    (h : Filling t.bytes i x) : ∃ x', overlapTurn t.mem i x = .ok x' ∧ Filling t.bytes (i + 1) x' := by
  obtain ⟨j, overlap⟩ := x
  obtain ⟨i, rfl⟩ : ∃ k, i = k + 1 := ⟨i - 1, by omega⟩
  have hj : j = weakBorder t.bytes i := h.j
  have hlen : overlap.length = t.bytes.length := h.length
  have hjl : j < t.bytes.length := by have := weakBorder_le t.bytes i; omega
  have hcell : ∀ v, weakBorder t.bytes (i + 1) = v →
      ∀ k < i + 2, (overlap.set (i + 1) v)[k]? = some (weakBorder t.bytes k) := by
    intro v hv k hk
    rcases Nat.lt_succ_iff_lt_or_eq.1 hk with hk | rfl
    · rw [List.getElem?_set_ne (by omega)]
      exact h.cells k hk
    · rw [List.getElem?_set_self (by omega), hv]
  have hstep : weakBorder t.bytes (i + 1) = if t.bytes[i + 1] = t.bytes[j] then j + 1 else 0 := by
    rw [weakBorder, ← hj, List.getElem?_eq_getElem hlt, List.getElem?_eq_getElem hjl]
    simp
  unfold overlapTurn
  simp only [load_mem hlt, load_mem hjl, ok_bind]
  by_cases he : t.bytes[i + 1] = t.bytes[j]
  · rw [if_pos he] at hstep
    have hprev : load overlap (i + 1 - 1) = .ok j := by rw [load_ok_iff, Nat.add_sub_cancel, h.cells i (by omega), hj]
    rw [if_pos he, hprev, ok_bind, store_ok (by omega), ok_bind]
    exact ⟨_, rfl, by simpa using hlen, hcell _ hstep, hstep.symm⟩
  · rw [if_neg he] at hstep
    rw [if_neg he, store_ok (by omega), ok_bind]
    exact ⟨_, rfl, by simpa using hlen, hcell _ hstep, hstep.symm⟩

/-- **The first loop** computes `weakBorder`. -/
theorem overlapTable_spec {t : CString} (ht : t.bytes ≠ []) (junk : Nat → Nat) :
    ∃ overlap, overlapTable t.mem t.bytes.length junk = .ok overlap ∧ overlap.length = t.bytes.length ∧
      ∀ k < t.bytes.length, overlap[k]? = some (weakBorder t.bytes k) := by
  have hpos : 0 < t.bytes.length := List.length_pos_iff.2 ht
  have hlen : ((List.range t.bytes.length).map junk).length = t.bytes.length := by simp
  have h0 : Filling t.bytes 1 (0, ((List.range t.bytes.length).map junk).set 0 0) := by
    refine ⟨by simp, fun k hk => ?_, rfl⟩
    obtain rfl : k = 0 := by omega
    rw [List.getElem?_set_self (by omega)]
    rfl
  obtain ⟨⟨j, overlap⟩, hf, hfill⟩ := forUp_total (n := t.bytes.length - 1)
    (fun i x hi hlt hx => overlapTurn_filling hi (by omega) hx) h0
  refine ⟨overlap, ?_, hfill.length, fun k hk => hfill.cells k (by omega)⟩
  unfold overlapTable
  rw [store_ok (by omega), ok_bind, hf, ok_bind]

theorem overlapTable_length {substring : List (BitVec 8)} {n : Nat} {junk : Nat → Nat} {overlap : List Nat}
    (h : overlapTable substring n junk = .ok overlap) : overlap.length = n := by
  obtain ⟨first, hfirst, h⟩ := bind_ok_iff.1 h
  obtain ⟨⟨j, table⟩, hfor, h⟩ := bind_ok_iff.1 h
  cases h
  have hstored : ∀ {a b : List Nat} {i v : Nat}, store a i v = .ok b → b.length = a.length := by
    intro a b i v hab
    unfold store at hab
    split at hab
    · cases hab
      exact List.length_set
    · cases hab
  refine @forUp_keeps _ _ (fun _ x => x.2.length = n) _ _ _ _ (fun i x x' _ _ hx hturn => ?_) ?_ hfor
  · obtain ⟨a, -, hturn⟩ := bind_ok_iff.1 hturn
    obtain ⟨b, -, hturn⟩ := bind_ok_iff.1 hturn
    split at hturn
    · obtain ⟨o, -, hturn⟩ := bind_ok_iff.1 hturn
      obtain ⟨table, hset, hturn⟩ := bind_ok_iff.1 hturn
      cases hturn
      exact (hstored hset).trans hx
    · obtain ⟨table, hset, hturn⟩ := bind_ok_iff.1 hturn
      cases hturn
      exact (hstored hset).trans hx
  · simpa using hstored hfirst

theorem weakBorder_longest_iff (t : List (BitVec 8)) :
    (∀ i < t.length, LongestBorder t i (weakBorder t i)) ↔ NeedsNoShorter t := by
  refine ⟨fun hlongest i b k hi hb hk hext => ?_, fun hneeds i hi => longestBorder_weakBorder hneeds hi⟩
  obtain rfl := hb.unique (hlongest i (by omega))
  -- The next border is not empty, so this one was extended.
  have hle := (hlongest (i + 1) hi).longest (k + 1) ((isBorder_succ_iff hi).2 ⟨hk, hext⟩)
  by_contra hne
  rw [weakBorder, if_neg fun h => hne h.symm] at hle
  exact absurd hle (Nat.not_succ_le_zero k)

/-- **When the table is the failure function.** For every nonempty pattern,
whatever the fresh block holds: the first loop, run to the length the code
keeps of the pattern's, gives for every character the length of the longest
proper prefix of the pattern up to there that is also its suffix, exactly when
the pattern's length is an `int` and it needs no shorter border to go on
with. -/
theorem overlapTable_longest_iff {t : CString} (ht : t.bytes ≠ []) (junk : Nat → Nat) :
    (∃ overlap, overlapTable t.mem (toInt t.bytes.length).toNat junk = .ok overlap ∧
      ∀ i < t.bytes.length, ∃ k, overlap[i]? = some k ∧ LongestBorder t.bytes i k) ↔
      (t.bytes.length : Int) ≤ intMax ∧ NeedsNoShorter t.bytes := by
  by_cases hint : (t.bytes.length : Int) ≤ intMax
  · obtain ⟨overlap, hov, -, hcells⟩ := overlapTable_spec ht junk
    rw [toInt_eq hint, Int.toNat_natCast, hov, ← weakBorder_longest_iff]
    refine ⟨fun ⟨_, he, hall⟩ => ⟨hint, fun i hi => ?_⟩, fun ⟨_, hlongest⟩ =>
      ⟨overlap, rfl, fun i hi => ⟨_, hcells i hi, hlongest i hi⟩⟩⟩
    cases he
    obtain ⟨k, hcell, hlong⟩ := hall i hi
    rw [hcells i hi] at hcell
    cases hcell
    exact hlong
  · -- The table ends before the pattern does.
    refine ⟨fun ⟨overlap, hov, hall⟩ => ?_, fun h => absurd h.1 hint⟩
    obtain ⟨k, hcell, -⟩ := hall _ (toInt_lt hint)
    rw [List.getElem?_eq_none (overlapTable_length hov).le] at hcell
    cases hcell

/-- "abaa" up to its end has the border "a", and the table 0. -/
theorem overlapTable_misses :
    let abaa : CString := ⟨[97, 98, 97, 97], by decide⟩
    overlapTable abaa.mem 4 (fun _ => 7) = .ok [0, 0, 1, 0] ∧ IsBorder abaa.bytes 3 1 ∧
      ¬ LongestBorder abaa.bytes 3 0 := by
  have hborder : IsBorder ([97, 98, 97, 97] : List (BitVec 8)) 3 1 := ⟨by decide, [97, 98, 97], rfl⟩
  exact ⟨by decide, hborder, fun h => absurd (h.longest 1 hborder) (by decide)⟩

/-- No border of "aa" can be extended to one of "aab". -/
theorem overlapTable_longest_iff_sample :
    let aab : CString := ⟨[97, 97, 98], by decide⟩
    ∃ overlap, overlapTable aab.mem 3 (fun _ => 7) = .ok overlap ∧
      ∀ i < 3, ∃ k, overlap[i]? = some k ∧ LongestBorder aab.bytes i k := by
  refine (@overlapTable_longest_iff ⟨[97, 97, 98], by decide⟩ (by simp) fun _ => 7).2
    ⟨by decide, fun i b k hi hb hk hext => ?_⟩
  obtain rfl | rfl : i = 0 ∨ i = 1 := by
    simp only [List.length_cons, List.length_nil] at hi
    omega
  · obtain rfl := Nat.le_zero.1 hb.border.1
    exact Nat.le_zero.1 hk.1 ▸ hext
  · obtain rfl | rfl := Nat.le_one_iff_eq_zero_or_eq_one.1 hk.1
    · exact absurd hext (by decide)
    · exact absurd hext (by decide)

/-! ## The places the search compares from -/

/-- Where the search goes on from `c`, by how many characters `s` has in
common with `t` there. It stays where `t` occurs and where `s` ends. -/
def jump (s t : List (BitVec 8)) (c : Nat) : Nat :=
  let q := lcp (s.drop c) t
  if q = t.length ∨ s.length ≤ c + q then c
  else if q = 0 then c + 1
  else if q = 1 then c + 2
  else c + (q - weakBorder t (q - 1))

/-- The search compares from `c`. -/
def Visits (s t : List (BitVec 8)) (c : Nat) : Prop := ∃ n, (jump s t)^[n] 0 = c

theorem le_jump (s t : List (BitVec 8)) (c : Nat) : c ≤ jump s t c := by
  unfold jump
  dsimp only
  split
  · exact Nat.le_refl c
  · split
    · omega
    · split <;> omega

theorem visits_zero (s t : List (BitVec 8)) : Visits s t 0 := ⟨0, rfl⟩

theorem Visits.next {s t : List (BitVec 8)} {c : Nat} (h : Visits s t c) : Visits s t (jump s t c) := by
  obtain ⟨n, rfl⟩ := h
  exact ⟨n + 1, Function.iterate_succ_apply' _ _ _⟩

theorem Visits.jump_le {s t : List (BitVec 8)} {c d : Nat} (hc : Visits s t c) (hd : Visits s t d) (h : c < d) :
    jump s t c ≤ d := by
  obtain ⟨n, rfl⟩ := hc
  obtain ⟨k, rfl⟩ := hd
  have hmono : Monotone fun n => (jump s t)^[n] 0 :=
    monotone_nat_of_le_succ fun n => by rw [Function.iterate_succ_apply']; exact le_jump s t _
  have hlt : n < k := by
    by_contra hle
    exact absurd (hmono (Nat.le_of_not_lt hle)) (by simpa using h)
  rw [← Function.iterate_succ_apply' (jump s t)]
  exact hmono hlt

/-! ## The search -/

/-- What `hit` characters matched before `i` mean for the place `i - hit`. -/
theorem take_drop_of_suffix {s u : List (BitVec 8)} {i : Nat} (h : u <:+ s.take i) (hi : i ≤ s.length) :
    u.length ≤ i ∧ (s.drop (i - u.length)).take u.length = u := by
  obtain ⟨v, hv⟩ := h
  have hl := congrArg List.length hv
  simp only [List.length_append, List.length_take, Nat.min_eq_left hi] at hl
  refine ⟨by omega, ?_⟩
  calc (s.drop (i - u.length)).take u.length
      _ = (s.take i).drop (i - u.length) := by rw [List.drop_take, show i - (i - u.length) = u.length by omega]
      _ = u := by rw [← hv, show i - u.length = v.length by omega, List.drop_left]

/-- The search's state: `hit` characters of `t` end at `i`, so it is at the
place `i - hit`, and `t` occurs at none of those it visited before. -/
structure Scanning (s t : List (BitVec 8)) (x : Scan) : Prop where
  j : x.j = x.hit
  hit : x.hit ≤ t.length
  i : x.i ≤ s.length
  matched : t.take x.hit <:+ s.take x.i
  visits : Visits s t (x.i - x.hit)
  earlier : ∀ c, Visits s t c → c < x.i - x.hit → ¬ OccursAt s t c

theorem Scanning.hit_le {s t : List (BitVec 8)} {x : Scan} (h : Scanning s t x) : x.hit ≤ x.i := by
  have := (take_drop_of_suffix h.matched h.i).1
  rwa [List.length_take, Nat.min_eq_left h.hit] at this

theorem Scanning.take_drop {s t : List (BitVec 8)} {x : Scan} (h : Scanning s t x) :
    (s.drop (x.i - x.hit)).take x.hit = t.take x.hit := by
  have := (take_drop_of_suffix h.matched h.i).2
  rwa [List.length_take, Nat.min_eq_left h.hit] at this

/-- At a mismatch the search has seen all that `s` and `t` have in common
there. -/
theorem Scanning.lcp_eq {s t : List (BitVec 8)} {x : Scan} (h : Scanning s t x) (hi : x.i < s.length)
    (hj : x.hit < t.length) (hne : s[x.i] ≠ t[x.hit]) : lcp (s.drop (x.i - x.hit)) t = x.hit := by
  have hle := h.hit_le
  refine Matching.lcp_eq (by rw [List.length_drop]; omega) hj h.take_drop ?_
  simpa [show x.i - x.hit + x.hit = x.i by omega] using hne

theorem Scanning.not_occursAt {s t : List (BitVec 8)} {x : Scan} (h : Scanning s t x) (hi : x.i < s.length)
    (hj : x.hit < t.length) (hne : s[x.i] ≠ t[x.hit]) : ¬ OccursAt s t (x.i - x.hit) := by
  intro ho
  have hle := h.hit_le
  have := List.IsPrefix.getElem ho hj
  rw [List.getElem_drop] at this
  exact hne (by simpa [show x.i - x.hit + x.hit = x.i by omega] using this.symm)

theorem Scanning.moved {s t : List (BitVec 8)} {x : Scan} (h : Scanning s t x) (hi : x.i < s.length)
    (hj : x.hit < t.length) (hne : s[x.i] ≠ t[x.hit]) {y : Scan} (hy : y.i - y.hit = jump s t (x.i - x.hit)) :
    Visits s t (y.i - y.hit) ∧ ∀ c, Visits s t c → c < y.i - y.hit → ¬ OccursAt s t c := by
  rw [hy]
  refine ⟨h.visits.next, fun c hc hlt => ?_⟩
  rcases Nat.lt_trichotomy c (x.i - x.hit) with hlt' | rfl | hgt
  · exact h.earlier c hc hlt'
  · exact h.not_occursAt hi hj hne
  · exact absurd (h.visits.jump_le hc hgt) (by omega)

theorem Scanning.extend {s t : List (BitVec 8)} {x : Scan} (h : Scanning s t x) (hi : x.i < s.length)
    (hj : x.hit < t.length) (he : s[x.i] = t[x.hit]) : Scanning s t ⟨x.i + 1, x.hit + 1, x.hit + 1⟩ := by
  refine ⟨rfl, hj, hi, ?_, ?_, ?_⟩
  · obtain ⟨v, hv⟩ := h.matched
    exact ⟨v, by rw [take_succ_eq hj, take_succ_eq hi, ← hv, he, List.append_assoc]⟩
  · simpa using h.visits
  · simpa using h.earlier

/-- With two characters matched or more, the table says how many still are. -/
theorem Scanning.fallBack {s t : List (BitVec 8)} {x : Scan} (h : Scanning s t x) (hi : x.i < s.length)
    (hj : x.hit < t.length) (hne : s[x.i] ≠ t[x.hit]) (h1 : 1 < x.hit) :
    Scanning s t ⟨x.i, weakBorder t (x.hit - 1), weakBorder t (x.hit - 1)⟩ := by
  have hle := h.hit_le
  have hwl := weakBorder_le t (x.hit - 1)
  have hsuf := (@isBorder_weakBorder t (x.hit - 1) (by omega)).2
  rw [Nat.sub_add_cancel (by omega)] at hsuf
  have hstop : ¬ (x.hit = t.length ∨ s.length ≤ x.i - x.hit + x.hit) := by omega
  have hjump : x.i - weakBorder t (x.hit - 1) = jump s t (x.i - x.hit) := by
    simp only [jump, h.lcp_eq hi hj hne, if_neg hstop, if_neg (show x.hit ≠ 0 by omega),
      if_neg (show x.hit ≠ 1 by omega)]
    omega
  obtain ⟨hvisits, hearlier⟩ := h.moved hi hj hne
    (y := ⟨x.i, weakBorder t (x.hit - 1), weakBorder t (x.hit - 1)⟩) hjump
  exact ⟨rfl, by simp only; omega, h.i, hsuf.trans h.matched, hvisits, hearlier⟩

/-- With fewer, the search starts anew behind the mismatch. -/
theorem Scanning.restart {s t : List (BitVec 8)} {x : Scan} (h : Scanning s t x) (hi : x.i < s.length)
    (hj : x.hit < t.length) (hne : s[x.i] ≠ t[x.hit]) (h1 : ¬ 1 < x.hit) : Scanning s t ⟨x.i + 1, 0, 0⟩ := by
  have hle := h.hit_le
  have hstop : ¬ (x.hit = t.length ∨ s.length ≤ x.i - x.hit + x.hit) := by omega
  have hjump : x.i + 1 - 0 = jump s t (x.i - x.hit) := by
    simp only [jump, h.lcp_eq hi hj hne, if_neg hstop]
    split
    · omega
    · rw [if_pos (by omega)]
      omega
  obtain ⟨hvisits, hearlier⟩ := h.moved hi hj hne (y := ⟨x.i + 1, 0, 0⟩) hjump
  exact ⟨rfl, Nat.zero_le _, hi, List.nil_suffix, hvisits, hearlier⟩

/-- How the search ends: at the first visited place where `t` occurs, with
more of `s` to come, or at the end of `s` with the place still open. -/
def Scanned (s t : List (BitVec 8)) (r : Int) : Prop :=
  ∃ c, Visits s t c ∧ (∀ d, Visits s t d → d < c → ¬ OccursAt s t d) ∧
    ((r = c ∧ OccursAt s t c ∧ c + t.length < s.length) ∨ (r = -1 ∧ s.length ≤ c + t.length))

theorem scanTurn_scanning {s t : CString} {overlap : List Nat}
    (hov : ∀ k < t.bytes.length, overlap[k]? = some (weakBorder t.bytes k)) (x : Scan)
    (h : Scanning s.bytes t.bytes x) :
    (∃ y, scanTurn s.mem t.mem s.bytes.length t.bytes.length overlap x = .ok (.next y) ∧
      Scanning s.bytes t.bytes y ∧ 2 * (s.bytes.length - y.i) + y.hit < 2 * (s.bytes.length - x.i) + x.hit) ∨
      ∃ r, scanTurn s.mem t.mem s.bytes.length t.bytes.length overlap x = .ok (.done r) ∧
        Scanned s.bytes t.bytes r := by
  have hhit := h.hit
  have hle := h.hit_le
  unfold scanTurn
  rw [h.j]
  by_cases hi : x.i < s.bytes.length
  · rw [if_pos hi]
    by_cases hm : x.hit = t.bytes.length
    · right
      have htd := h.take_drop
      rw [hm, List.take_length] at htd
      rw [if_pos hm]
      exact ⟨_, rfl, x.i - x.hit, h.visits, h.earlier,
        .inl ⟨by omega, occursAt_iff.2 (by rw [hm]; exact htd), by omega⟩⟩
    · left
      have hj : x.hit < t.bytes.length := by omega
      simp only [if_neg hm, load_mem hi, load_mem hj, ok_bind]
      by_cases he : s.bytes[x.i] = t.bytes[x.hit]
      · rw [if_pos he]
        exact ⟨_, rfl, h.extend hi hj he, by simp only; omega⟩
      · rw [if_neg he]
        by_cases h1 : 1 < x.hit
        · have hwl := weakBorder_le t.bytes (x.hit - 1)
          rw [if_pos h1, load_ok_iff.2 (hov (x.hit - 1) (by omega)), ok_bind]
          exact ⟨_, rfl, h.fallBack hi hj he h1, by simp only; omega⟩
        · rw [if_neg h1]
          exact ⟨_, rfl, h.restart hi hj he h1, by simp only; omega⟩
  · right
    rw [if_neg hi]
    exact ⟨_, rfl, x.i - x.hit, h.visits, h.earlier, .inr ⟨rfl, by omega⟩⟩

theorem scanning_first (s t : List (BitVec 8)) : Scanning s t ⟨0, 0, 0⟩ :=
  ⟨rfl, Nat.zero_le _, Nat.zero_le _, List.nil_suffix, visits_zero s t, fun _ _ hc => absurd hc (Nat.not_lt_zero _)⟩

theorem Scanned.occursAt {s t : List (BitVec 8)} {r : Int} (h : Scanned s t r) (hr : 0 ≤ r) : OccursAt s t r.toNat := by
  obtain ⟨c, -, -, ⟨rfl, ho, -⟩ | ⟨rfl, -⟩⟩ := h
  · exact ho
  · omega

theorem loop_scanTurn {s t : CString} {overlap : List Nat}
    (hov : ∀ k < t.bytes.length, overlap[k]? = some (weakBorder t.bytes k)) :
    ∃ r, loop (scanTurn s.mem t.mem s.bytes.length t.bytes.length overlap) (2 * s.bytes.length + 1) ⟨0, 0, 0⟩ = .ok r ∧
      Scanned s.bytes t.bytes r :=
  loop_total (fun x : Scan => 2 * (s.bytes.length - x.i) + x.hit) (scanTurn_scanning hov)
    (scanning_first s.bytes t.bytes) (by simp only; omega)

/-- **What `my_strstr` computes**, for strings whose lengths are `int`s. -/
theorem myStrstr_scanned {s t : CString} (ht : t.bytes ≠ []) (hs : (s.bytes.length : Int) ≤ intMax)
    (htl : (t.bytes.length : Int) ≤ intMax) (junk : Nat → Nat) :
    ∃ r, myStrstr s.mem t.mem junk = .ok r ∧
      (if t.bytes.length > s.bytes.length then r = -1 else Scanned s.bytes t.bytes r) := by
  unfold myStrstr
  simp only [strlen_mem, ok_bind, nat_ok hs, nat_ok htl]
  split
  · exact ⟨-1, rfl, rfl⟩
  · obtain ⟨overlap, hov, -, hcells⟩ := overlapTable_spec ht junk
    rw [hov, ok_bind]
    exact loop_scanTurn hcells

theorem myStrstr_overflow {s t : CString}
    (h : ¬ ((s.bytes.length : Int) ≤ intMax ∧ (t.bytes.length : Int) ≤ intMax)) (junk : Nat → Nat) :
    myStrstr s.mem t.mem junk = .error .overflow := by
  unfold myStrstr
  simp only [strlen_mem, ok_bind]
  by_cases ht : (t.bytes.length : Int) ≤ intMax
  · rw [nat_ok ht, ok_bind, nat_overflow fun hs => h ⟨hs, ht⟩, error_bind]
  · rw [nat_overflow ht, error_bind]

/-- **When `my_strstr` agrees with `strstr`.** For all strings and a nonempty
pattern, it returns the first occurrence (-1 if there is none) exactly when
the lengths are `int`s and the first occurrence, if there is one, ends before
the end of the string and is a place the search visits. -/
theorem myStrstr_finds_iff {s t : CString} (ht : t.bytes ≠ []) (junk : Nat → Nat) :
    (∃ r, myStrstr s.mem t.mem junk = .ok r ∧ Finds s.bytes t.bytes r) ↔
      (s.bytes.length : Int) ≤ intMax ∧ (t.bytes.length : Int) ≤ intMax ∧
        ∀ p, FirstAt s.bytes t.bytes p → p + t.bytes.length < s.bytes.length ∧ Visits s.bytes t.bytes p := by
  by_cases hint : (s.bytes.length : Int) ≤ intMax ∧ (t.bytes.length : Int) ≤ intMax
  · obtain ⟨hs, htl⟩ := hint
    obtain ⟨r, hr, hpost⟩ := myStrstr_scanned ht hs htl junk
    have hres : (∃ r, myStrstr s.mem t.mem junk = .ok r ∧ Finds s.bytes t.bytes r) ↔ Finds s.bytes t.bytes r := by
      rw [hr]
      simp
    simp only [hres, hs, htl, true_and]
    split at hpost
    · -- A pattern longer than the string occurs nowhere.
      next hlong =>
      have hno : ∀ p, ¬ OccursAt s.bytes t.bytes p := fun p hp => by have := hp.le ht; omega
      exact ⟨fun _ p hp => absurd hp.1 (hno p), fun _ => .inr ⟨hpost, hno⟩⟩
    · obtain ⟨c, hc, hearlier, ⟨rfl, ho, hlt⟩ | ⟨rfl, hend⟩⟩ := hpost
      · constructor
        · intro hf p hp
          have : (c : Int) = p := (finds_iff.1 hf).1 p hp
          obtain rfl : c = p := by omega
          exact ⟨hlt, hc⟩
        · intro h
          obtain ⟨q, hq, hfirst⟩ := exists_firstAt ho
          rcases Nat.lt_or_eq_of_le hq with hlt' | rfl
          · exact absurd hfirst.1 (hearlier q (h q hfirst).2 hlt')
          · exact .inl ⟨q, rfl, hfirst⟩
      · constructor
        · intro hf p hp
          have := (finds_iff.1 hf).1 p hp
          omega
        · intro h
          refine .inr ⟨rfl, fun p hp => ?_⟩
          obtain ⟨q, -, hfirst⟩ := exists_firstAt hp
          obtain ⟨hlt, hv⟩ := h q hfirst
          exact hearlier q hv (by omega) hfirst.1
  · simp only [myStrstr_overflow hint junk]
    constructor
    · intro hexists
      obtain ⟨r, hr, -⟩ := hexists
      cases hr
    · exact fun h => absurd ⟨h.1, h.2.1⟩ hint

/-- **The search ends and reports no false match.** For all strings and a
nonempty pattern no longer than the string: the table is built and the loop
ends. Whenever a turn begins, `j` is `match`, and the last `match` characters
before `i` are the first `match` of the pattern; and no turn reads outside the
strings or the table. Where the string's length is an `int`, the function
returns, and a non-negative result is a place where the pattern occurs. -/
theorem myStrstr_search_sound {s t : CString} (ht : t.bytes ≠ []) (hle : t.bytes.length ≤ s.bytes.length)
    (junk : Nat → Nat) :
    ∃ overlap, overlapTable t.mem t.bytes.length junk = .ok overlap ∧ overlap.length = t.bytes.length ∧
      (∃ r, loop (scanTurn s.mem t.mem s.bytes.length t.bytes.length overlap) (2 * s.bytes.length + 1) ⟨0, 0, 0⟩ = .ok r ∧
        (0 ≤ r → OccursAt s.bytes t.bytes r.toNat)) ∧
      (∀ n, ∀ x ∈ begun (scanTurn s.mem t.mem s.bytes.length t.bytes.length overlap) n ⟨0, 0, 0⟩,
        x.j = x.hit ∧ x.hit ≤ t.bytes.length ∧ x.hit ≤ x.i ∧ x.i ≤ s.bytes.length ∧
          (s.bytes.drop (x.i - x.hit)).take x.hit = t.bytes.take x.hit ∧
          ∃ y, scanTurn s.mem t.mem s.bytes.length t.bytes.length overlap x = .ok y) ∧
      (((s.bytes.length : Int) ≤ intMax →
          ∃ r, myStrstr s.mem t.mem junk = .ok r ∧ myStrstrCut s.mem t.mem junk = .ok r) ∧
        ∀ r, myStrstr s.mem t.mem junk = .ok r → 0 ≤ r → OccursAt s.bytes t.bytes r.toNat) := by
  obtain ⟨overlap, hov, hlen, hcells⟩ := overlapTable_spec ht junk
  refine ⟨overlap, hov, hlen, ?_, fun n x hx => ?_, fun hs => ?_, fun r hr h0 => ?_⟩
  · obtain ⟨r, hr, hpost⟩ := loop_scanTurn (s := s) hcells
    exact ⟨r, hr, hpost.occursAt⟩
  · have hscan := begun_keeps (scanTurn_scanning hcells) hx (scanning_first s.bytes t.bytes)
    refine ⟨hscan.j, hscan.hit, hscan.hit_le, hscan.i, hscan.take_drop, ?_⟩
    rcases scanTurn_scanning hcells x hscan with ⟨y, hy, -⟩ | ⟨r, hr, -⟩
    · exact ⟨_, hy⟩
    · exact ⟨_, hr⟩
  · obtain ⟨r, hr, -⟩ := myStrstr_scanned ht hs (by omega) junk
    exact ⟨r, hr, (myStrstrCut_eq hs (by omega) junk).trans hr⟩
  · by_cases hint : (s.bytes.length : Int) ≤ intMax ∧ (t.bytes.length : Int) ≤ intMax
    · obtain ⟨r', hr', hpost⟩ := myStrstr_scanned ht hint.1 hint.2 junk
      rw [hr] at hr'
      cases hr'
      rw [if_neg (by omega)] at hpost
      exact hpost.occursAt h0
    · rw [myStrstr_overflow hint] at hr
      cases hr

theorem myStrstr_search_sound_sample :
    let ab : CString := ⟨[97, 98], by decide⟩
    let xaby : CString := ⟨[120, 97, 98, 121], by decide⟩
    ∃ overlap, overlapTable ab.mem 2 (fun _ => 7) = .ok overlap ∧
      ∃ r, loop (scanTurn xaby.mem ab.mem 4 2 overlap) 9 ⟨0, 0, 0⟩ = .ok r ∧
        (0 ≤ r → OccursAt xaby.bytes ab.bytes r.toNat) := by
  obtain ⟨overlap, hov, -, hloop, -⟩ := myStrstr_search_sound (s := ⟨[120, 97, 98, 121], by decide⟩)
    (t := ⟨[97, 98], by decide⟩) (by simp) (by simp) (fun _ => 7)
  exact ⟨overlap, hov, hloop⟩

/-- A pattern whose length is cut to 1, in a string whose length is cut to 2 or
more: their first characters are compared, and nothing else. -/
theorem myStrstrCut_head {s t : CString} {c : BitVec 8} {u v : List (BitVec 8)} (hs : s.bytes = c :: u)
    (ht : t.bytes = c :: v) (hslen : 2 ≤ toInt s.bytes.length) (htlen : toInt t.bytes.length = 1) (junk : Nat → Nat) :
    myStrstrCut s.mem t.mem junk = .ok 0 := by
  obtain ⟨n, hn⟩ : ∃ n : Nat, toInt s.bytes.length = n + 2 := ⟨(toInt s.bytes.length - 2).toNat, by omega⟩
  have hsload : load s.mem 0 = .ok c := by rw [CString.mem, hs]; rfl
  have htload : load t.mem 0 = .ok c := by rw [CString.mem, ht]; rfl
  have htable : overlapTable t.mem 1 junk = .ok [0] := rfl
  have hone : scanTurn s.mem t.mem (n + 2) 1 [0] ⟨0, 0, 0⟩ = .ok (.next ⟨1, 1, 1⟩) := by
    simp [scanTurn, hsload, htload]
  have htwo : scanTurn s.mem t.mem (n + 2) 1 [0] ⟨1, 1, 1⟩ = .ok (.done 0) := by simp [scanTurn]
  unfold myStrstrCut
  simp only [strlen_mem, ok_bind, htlen, hn, if_neg (show ¬ (1 : Int) > n + 2 by omega)]
  rw [show ((n : Int) + 2).toNat = n + 2 by omega, show (1 : Int).toNat = 1 from rfl, htable, ok_bind]
  rw [show 2 * (n + 2) + 1 = 2 * n + 3 + 1 + 1 by omega, loop_next hone, loop_done htwo]

/-- An `a` and `n` more characters. -/
def aThen (c : BitVec 8) (hc : c ≠ 0) (n : Nat) : CString :=
  ⟨97 :: List.replicate n c, by
    rw [List.mem_cons, List.mem_replicate, not_or]
    exact ⟨by decide, fun h => hc h.2.symm⟩⟩

theorem aThen_not_occursAt {b c : BitVec 8} {hb : b ≠ 0} {hc : c ≠ 0} (hne : b ≠ c) {k n : Nat} (hk : 0 < k) :
    ¬ OccursAt (aThen c hc n).bytes (aThen b hb k).bytes 0 := by
  intro h
  obtain ⟨k, rfl⟩ := Nat.exists_eq_succ_of_ne_zero hk.ne'
  have hpre : List.replicate (k + 1) b <+: List.replicate n c := (List.cons_prefix_cons.1 h).2
  have hmem : b ∈ List.replicate n c := hpre.subset (by simp)
  exact hne (List.eq_of_mem_replicate hmem)

theorem aThen_length {c : BitVec 8} {hc : c ≠ 0} (n : Nat) : (aThen c hc n).bytes.length = n + 1 := by
  simp only [aThen, List.length_cons, List.length_replicate]

theorem myStrstrCut_aThen {b c : BitVec 8} {hb : b ≠ 0} {hc : c ≠ 0} {k n : Nat} (hk : toInt (k + 1) = 1)
    (hn : 2 ≤ toInt (n + 1)) (junk : Nat → Nat) : myStrstrCut (aThen c hc n).mem (aThen b hb k).mem junk = .ok 0 :=
  myStrstrCut_head rfl rfl (by rwa [aThen_length]) (by rwa [aThen_length]) junk

/-- An `a` and `2 ^ 32` times `b`, looked for in an `a` and `2 ^ 32 + 9` times
`c`: the lengths kept are 1 and 10, and the search reports the place 0. -/
theorem myStrstr_false_match :
    ∃ s t : CString, s = aThen 99 (by decide) (2 ^ 32 + 9) ∧ t = aThen 98 (by decide) (2 ^ 32) ∧ t.bytes ≠ [] ∧
      t.bytes.length ≤ s.bytes.length ∧ myStrstrCut s.mem t.mem (fun _ => 0) = .ok 0 ∧
      ¬ OccursAt s.bytes t.bytes 0 := by
  refine ⟨_, _, rfl, rfl, List.cons_ne_nil _ _, ?_, myStrstrCut_aThen (by rfl) (by decide) fun _ => 0,
    aThen_not_occursAt (by decide) (by norm_num)⟩
  rw [aThen_length, aThen_length]
  norm_num

/-- "aabx" has "ab" at 1, "ab" has it at 0: the search drops the second `a` of
the one and stops at the end of the other. -/
theorem myStrstr_misses :
    let ab : CString := ⟨[97, 98], by decide⟩
    let aabx : CString := ⟨[97, 97, 98, 120], by decide⟩
    (myStrstr aabx.mem ab.mem (fun _ => 0) = .ok (-1) ∧ ¬ Finds aabx.bytes ab.bytes (-1)) ∧
      (myStrstr ab.mem ab.mem (fun _ => 0) = .ok (-1) ∧ ¬ Finds ab.bytes ab.bytes (-1)) := by
  refine ⟨⟨by decide, fun h => ?_⟩, by decide, fun h => ?_⟩
  · have := (finds_iff.1 h).1 1 ⟨by decide, by decide⟩
    omega
  · have := (finds_iff.1 h).1 0 ⟨by decide, by decide⟩
    omega

theorem myStrstr_finds_iff_sample :
    let ab : CString := ⟨[97, 98], by decide⟩
    let xaby : CString := ⟨[120, 97, 98, 121], by decide⟩
    ∃ r, myStrstr xaby.mem ab.mem (fun _ => 0) = .ok r ∧ Finds xaby.bytes ab.bytes r := by
  refine (myStrstr_finds_iff (by simp) _).2 ⟨by decide, by decide, fun p hp => ?_⟩
  have h1 : ¬ 1 < p := fun h => hp.2 1 h (by decide)
  have h0 : p ≠ 0 := fun h => absurd (h ▸ hp.1) (by decide)
  obtain rfl : p = 1 := by omega
  exact ⟨by decide, 1, by decide⟩

end SugarNSpice.Strstr
