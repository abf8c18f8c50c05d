/-
When `my_strstr_hash` finds the first occurrence.

The rolling hash is exact: `hashAddSub` turns the hash of one window into
that of the next, in wrapping arithmetic and for characters of either sign,
so the filter never rejects a window that equals the pattern. What the
function misses is the last window, which its loop does not reach; and for a
pattern longer than the string by two or more, the first window's hash is
taken from bytes past the end of the string.
-/
import SugarNSpice.StrstrFacts
import Mathlib.Data.BitVec
import Mathlib.Tactic.Ring

namespace SugarNSpice.Strstr

open CLang Matching

/-! ## The hash -/

/-- The hash of a window, from scratch. -/
def hashOf (w : List (BitVec 8)) : BitVec 64 := w.foldl (fun h c => h * prime + toULong c) 0

theorem hashOf_append (w : List (BitVec 8)) (c : BitVec 8) : hashOf (w ++ [c]) = hashOf w * prime + toULong c := by
  simp [hashOf]

theorem hashOf_cons (c : BitVec 8) (w : List (BitVec 8)) :
    hashOf (c :: w) = toULong c * prime ^ w.length + hashOf w := by
  induction w using List.reverseRecOn with
  | nil => simp [hashOf]
  | append_singleton w d ih =>
    rw [← List.cons_append, hashOf_append, hashOf_append, ih, List.length_append, List.length_singleton, pow_succ]
    ring

theorem hashNew_spec {str : List (BitVec 8)} {len : Nat} (h0 : 0 < len) (h : len ≤ str.length) :
    hashNew str len = .ok (hashOf (str.take len)) := by
  have hstep : ∀ i (hash : BitVec 64), 1 ≤ i → i < 1 + (len - 1) → hash = hashOf (str.take i) →
      ∃ hash', (do let c ← load str i; .ok (hash * prime + toULong c) : Outcome (BitVec 64)) = .ok hash' ∧
        hash' = hashOf (str.take (i + 1)) := by
    rintro i hash - hi rfl
    rw [load_ok (show i < str.length by omega), ok_bind]
    exact ⟨_, rfl, by rw [take_succ_eq (by omega), hashOf_append]⟩
  have hfirst : (0 : BitVec 64) + toULong str[0] = hashOf (str.take 1) := by
    rw [take_succ_eq (by omega), hashOf_append]
    simp [hashOf]
  obtain ⟨r, hr, rfl⟩ := forUp_total hstep hfirst
  unfold hashNew
  rw [load_ok (by omega), ok_bind, hr, show 1 + (len - 1) = len by omega]

theorem le_of_hashNew {str : List (BitVec 8)} {len : Nat} {r : BitVec 64} (h : hashNew str len = .ok r) :
    len ≤ str.length := by
  have hlt : ∀ {i : Nat} {c}, load str i = .ok c → i < str.length := fun hl =>
    (List.getElem?_eq_some_iff.1 (load_ok_iff.1 hl)).1
  unfold hashNew at h
  obtain ⟨c, hc, h⟩ := bind_ok_iff.1 h
  by_contra hn
  rcases Nat.lt_or_ge len 2 with h2 | h2
  · have := hlt hc; omega
  · obtain ⟨t, t', hb⟩ := forUp_body_ok h (len - 1) (by omega) (by omega)
    obtain ⟨d, hd, -⟩ := bind_ok_iff.1 hb
    have := hlt hd
    omega

/-- **The rolling step**: the hash of the next window. -/
theorem hashAddSub_spec (c d : BitVec 8) (w : List (BitVec 8)) :
    hashAddSub (hashOf (c :: w)) c d (w.length + 1) = hashOf (w ++ [d]) := by
  have hpow : ∀ (n : Nat) (x : BitVec 64), (fun h => h * prime)^[n] x = x * prime ^ n := by
    intro n
    induction n with
    | zero => simp
    | succ n ih => intro x; rw [Function.iterate_succ_apply', ih, pow_succ]; ring
  unfold hashAddSub
  rw [Nat.add_sub_cancel, hpow, hashOf_cons, hashOf_append]
  ring

/-! ## The search -/

theorem window_shift {s : List (BitVec 8)} {i n : Nat} (hn : 0 < n) (hi : i + n < s.length) :
    ∃ w, w.length + 1 = n ∧ (s.drop i).take n = s[i] :: w ∧ (s.drop (i + 1)).take n = w ++ [s[i + n]] := by
  obtain ⟨m, rfl⟩ : ∃ m, n = m + 1 := ⟨n - 1, by omega⟩
  have hlt : m < (s.drop (i + 1)).length := by rw [List.length_drop]; omega
  refine ⟨(s.drop (i + 1)).take m, ?_, ?_, ?_⟩
  · rw [List.length_take]; omega
  · rw [List.drop_eq_getElem_cons (by omega), List.take_succ_cons]
  · rw [take_succ_eq hlt, List.getElem_drop]
    simp only [show i + 1 + m = i + (m + 1) by omega]

theorem hashAddSub_window {s : List (BitVec 8)} {i n : Nat} (hn : 0 < n) (hi : i + n < s.length) :
    hashAddSub (hashOf ((s.drop i).take n)) s[i] s[i + n] n = hashOf ((s.drop (i + 1)).take n) := by
  obtain ⟨w, hw, hwin, hnext⟩ := window_shift hn hi
  have hroll := hashAddSub_spec s[i] s[i + n] w
  rwa [hw, ← hwin, ← hnext] at hroll

/-- The loop's state: the window's hash, and no occurrence before it. -/
structure Hashing (s t : List (BitVec 8)) (x : Nat × BitVec 64) : Prop where
  le : x.1 + t.length ≤ s.length
  hash : x.2 = hashOf ((s.drop x.1).take t.length)
  earlier : ∀ q < x.1, ¬ OccursAt s t q

/-- How the loop ends: at the first occurrence before the last window, or
past it. -/
def Hashed (s t : List (BitVec 8)) (r : Int) : Prop :=
  (∃ p : Nat, r = p ∧ FirstAt s t p ∧ p + t.length < s.length) ∨
    (r = -1 ∧ ∀ q, q + t.length < s.length → ¬ OccursAt s t q)

/-- A turn that has a window: the comparison of hashes changes nothing, as
equal windows have equal ones. -/
theorem hashTurn_window {s t : CString} (ht : t.bytes ≠ []) {i : Nat} {hs : BitVec 64}
    (h : Hashing s.bytes t.bytes (i, hs)) (hi : i + t.bytes.length < s.bytes.length) :
    hashTurn s.mem t.mem s.bytes.length t.bytes.length (hashOf t.bytes) (i, hs) =
      .ok (if OccursAt s.bytes t.bytes i then .done i
        else .next (i + 1, hashOf ((s.bytes.drop (i + 1)).take t.bytes.length))) := by
  have hhash : hs = hashOf ((s.bytes.drop i).take t.bytes.length) := h.hash
  have hsame : (if hs = hashOf t.bytes then strncmpEq (s.mem.drop i) t.mem t.bytes.length else .ok false) =
      .ok (decide (OccursAt s.bytes t.bytes i)) := by
    split
    · rw [CString.mem, CString.mem, List.drop_append_of_le_length (by omega), strncmpEq_spec t.nulFree
        (.inl (by rw [List.length_append, List.length_drop]; omega))]
      have hlen : t.bytes.length ≤ (s.bytes.drop i).length := by rw [List.length_drop]; omega
      simp only [OccursAt, List.prefix_iff_eq_take, List.take_append_of_le_length hlen]
    · next hne =>
      rw [decide_eq_false]
      intro ho
      exact hne (by rw [hhash, occursAt_iff.1 ho])
  unfold hashTurn
  simp only [show (i : Int) < (s.bytes.length : Int) - t.bytes.length by omega, if_true, hsame, ok_bind]
  by_cases ho : OccursAt s.bytes t.bytes i
  · simp only [ho, decide_true, if_true]
  · simp only [ho, decide_false, Bool.false_eq_true, if_false, load_mem (show i < s.bytes.length by omega),
      load_mem hi, ok_bind, hhash, hashAddSub_window (List.length_pos_iff.2 ht) hi]

theorem hashTurn_hashing {s t : CString} (ht : t.bytes ≠ []) (x : Nat × BitVec 64) (h : Hashing s.bytes t.bytes x) :
    (∃ y, hashTurn s.mem t.mem s.bytes.length t.bytes.length (hashOf t.bytes) x = .ok (.next y) ∧
      Hashing s.bytes t.bytes y ∧ s.bytes.length - y.1 < s.bytes.length - x.1) ∨
      ∃ r, hashTurn s.mem t.mem s.bytes.length t.bytes.length (hashOf t.bytes) x = .ok (.done r) ∧
        Hashed s.bytes t.bytes r := by
  obtain ⟨i, hs⟩ := x
  have hle : i + t.bytes.length ≤ s.bytes.length := h.le
  by_cases hi : i + t.bytes.length < s.bytes.length
  · rw [hashTurn_window ht h hi]
    by_cases ho : OccursAt s.bytes t.bytes i
    · right
      rw [if_pos ho]
      exact ⟨_, rfl, .inl ⟨i, rfl, ⟨ho, h.earlier⟩, hi⟩⟩
    · left
      rw [if_neg ho]
      refine ⟨_, rfl, ⟨by simp only; omega, rfl, fun q hq => ?_⟩, by simp only; omega⟩
      rcases Nat.lt_succ_iff_lt_or_eq.1 hq with hq | rfl
      · exact h.earlier q hq
      · exact ho
  · right
    unfold hashTurn
    simp only [show ¬ (i : Int) < (s.bytes.length : Int) - t.bytes.length by omega, if_false]
    exact ⟨_, rfl, .inr ⟨rfl, fun q hq => h.earlier q (by simp only; omega)⟩⟩

theorem hashing_first {s : CString} {t : List (BitVec 8)} (h : t.length ≤ s.bytes.length) :
    Hashing s.bytes t (0, hashOf (s.mem.take t.length)) := by
  refine ⟨by omega, ?_, fun q hq => absurd hq (Nat.not_lt_zero q)⟩
  rw [CString.mem, List.take_append_of_le_length h, List.drop_zero]

/-- The hash of the first window, rolled on to the one at `i`. -/
def rolledHash (str : List (BitVec 8)) (len i : Nat) : Outcome (BitVec 64) := do
  let hs ← hashNew str len
  forUp (fun k hs => do
    let sub ← load str k
    let add ← load str (k + len)
    .ok (hashAddSub hs sub add len)) i 0 hs

theorem rolledHash_spec {str : List (BitVec 8)} {len i : Nat} (h0 : 0 < len) (hi : i + len ≤ str.length) :
    rolledHash str len i = .ok (hashOf ((str.drop i).take len)) := by
  have hstep : ∀ k (hs : BitVec 64), 0 ≤ k → k < 0 + i → hs = hashOf ((str.drop k).take len) →
      ∃ hs', (do let sub ← load str k; let add ← load str (k + len); .ok (hashAddSub hs sub add len) :
        Outcome (BitVec 64)) = .ok hs' ∧ hs' = hashOf ((str.drop (k + 1)).take len) := by
    rintro k hs - hk rfl
    rw [load_ok (show k < str.length by omega), ok_bind, load_ok (show k + len < str.length by omega), ok_bind]
    exact ⟨_, rfl, hashAddSub_window h0 (by omega)⟩
  have hfirst : hashOf (str.take len) = hashOf ((str.drop 0).take len) := by rw [List.drop_zero]
  obtain ⟨r, hr, rfl⟩ := forUp_total hstep hfirst
  unfold rolledHash
  rw [hashNew_spec h0 (by omega), ok_bind, hr, Nat.zero_add]

theorem CString.window_mem {s : CString} {i n : Nat} (h : i + n ≤ s.bytes.length) :
    (s.mem.drop i).take n = (s.bytes.drop i).take n := by
  rw [CString.mem, List.drop_append_of_le_length (by omega),
    List.take_append_of_le_length (by rw [List.length_drop]; omega)]

/-- **The rolling hash is the hash from scratch**, for every string, window
length and place; and the loop's hash at a place is that one, so a window
that equals the pattern passes the comparison of hashes. -/
theorem rolledHash_eq_hashNew {s : CString} {len i : Nat} (hlen : 1 ≤ len) (hi : i + len ≤ s.bytes.length) :
    ∃ h, rolledHash s.mem len i = .ok h ∧ hashNew (s.mem.drop i) len = .ok h ∧
      ∀ t : CString, t.bytes.length = len →
        ∃ hsub hs₀, hashNew t.mem len = .ok hsub ∧ hashNew s.mem len = .ok hs₀ ∧
          (OccursAt s.bytes t.bytes i → h = hsub) ∧
          ∀ n hs, (i, hs) ∈ begun (hashTurn s.mem t.mem s.bytes.length len hsub) n (0, hs₀) →
            hs = h ∧ (OccursAt s.bytes t.bytes i → i + len < s.bytes.length →
              hashTurn s.mem t.mem s.bytes.length len hsub (i, hs) = .ok (.done i)) := by
  have hmem : s.mem.length = s.bytes.length + 1 := by simp [CString.mem]
  have hwin := CString.window_mem hi
  refine ⟨hashOf ((s.bytes.drop i).take len), ?_, ?_, ?_⟩
  · rw [rolledHash_spec hlen (by omega), hwin]
  · rw [hashNew_spec hlen (by rw [List.length_drop]; omega), hwin]
  · rintro t rfl
    have ht : t.bytes ≠ [] := List.length_pos_iff.1 hlen
    refine ⟨hashOf t.bytes, hashOf (s.mem.take t.bytes.length), ?_, hashNew_spec hlen (by omega), ?_, ?_⟩
    · rw [hashNew_spec hlen (by simp [CString.mem]), CString.mem, List.take_left]
    · intro ho
      rw [occursAt_iff.1 ho]
    · intro n hs hbegun
      have hhash := begun_keeps (hashTurn_hashing ht) hbegun (hashing_first (by omega))
      exact ⟨hhash.hash, fun ho hlt => by rw [hashTurn_window ht hhash hlt, if_pos ho]⟩

/-- A byte of the string and one of the pattern are negative `char`s. -/
theorem rolledHash_eq_hashNew_sample :
    let s : CString := ⟨[97, 226, 99, 226], by decide⟩
    ∃ h, rolledHash s.mem 2 2 = .ok h ∧ hashNew (s.mem.drop 2) 2 = .ok h := by
  obtain ⟨h, hroll, hnew, -⟩ := @rolledHash_eq_hashNew ⟨[97, 226, 99, 226], by decide⟩ 2 2 (by decide) (by decide)
  exact ⟨h, hroll, hnew⟩

/-- With lengths that are `int`s, and a pattern that hashing the first window
does not read past the string's NUL for, the search ends as `Hashed` says. -/
theorem myStrstrHash_hashed {s t : CString} (ht : t.bytes ≠ []) (hs : (s.bytes.length : Int) ≤ intMax)
    (htl : (t.bytes.length : Int) ≤ intMax) (hle : t.bytes.length ≤ s.bytes.length + 1) :
    ∃ r, myStrstrHash s.mem t.mem = .ok r ∧ Hashed s.bytes t.bytes r := by
  have hpos : 0 < t.bytes.length := List.length_pos_iff.2 ht
  have hsub : hashNew t.mem t.bytes.length = .ok (hashOf t.bytes) := by
    rw [hashNew_spec hpos (by simp [CString.mem]), CString.mem, List.take_left]
  have hwin := hashNew_spec hpos (show t.bytes.length ≤ s.mem.length by simpa [CString.mem] using hle)
  unfold myStrstrHash
  simp only [strlen_mem, ok_bind, nat_ok hs, nat_ok htl, hsub, hwin]
  rcases Nat.lt_or_ge s.bytes.length t.bytes.length with hlong | hfits
  · -- The loop's bound is negative: no turn at all.
    refine ⟨-1, loop_done ?_ _, .inr ⟨rfl, fun q hq => by omega⟩⟩
    rw [hashTurn, if_neg (by omega)]
  · exact loop_total (fun x => s.bytes.length - x.1) (hashTurn_hashing ht) (hashing_first hfits) (by omega)

/-- Any other input is a fault: a length that is no `int`, or a first window
that ends past the NUL. -/
theorem myStrstrHash_fault {s t : CString} {r : Int} (h : myStrstrHash s.mem t.mem = .ok r) :
    (s.bytes.length : Int) ≤ intMax ∧ (t.bytes.length : Int) ≤ intMax ∧ t.bytes.length ≤ s.bytes.length + 1 := by
  unfold myStrstrHash at h
  simp only [strlen_mem, ok_bind] at h
  by_cases htl : (t.bytes.length : Int) ≤ intMax
  · by_cases hs : (s.bytes.length : Int) ≤ intMax
    · simp only [nat_ok htl, nat_ok hs, ok_bind] at h
      obtain ⟨hsub, -, h⟩ := bind_ok_iff.1 h
      obtain ⟨hwin, hnew, -⟩ := bind_ok_iff.1 h
      exact ⟨hs, htl, by simpa [CString.mem] using le_of_hashNew hnew⟩
    · rw [nat_ok htl, ok_bind, nat_overflow hs, error_bind] at h
      cases h
  · rw [nat_overflow htl, error_bind] at h
    cases h

/-- **When `my_strstr_hash` agrees with `strstr`.** For all strings and a
nonempty pattern, it returns the first occurrence (-1 if there is none)
exactly when the lengths are `int`s, the pattern is at most one longer than
the string, and the first occurrence, if there is one, ends before the end
of the string. -/
theorem myStrstrHash_finds_iff {s t : CString} (ht : t.bytes ≠ []) :
    (∃ r, myStrstrHash s.mem t.mem = .ok r ∧ Finds s.bytes t.bytes r) ↔
      (s.bytes.length : Int) ≤ intMax ∧ (t.bytes.length : Int) ≤ intMax ∧
        t.bytes.length ≤ s.bytes.length + 1 ∧
          ∀ p, FirstAt s.bytes t.bytes p → p + t.bytes.length < s.bytes.length := by
  constructor
  · intro hexists
    obtain ⟨r, hr, hf⟩ := hexists
    obtain ⟨hs, htl, hle⟩ := myStrstrHash_fault hr
    refine ⟨hs, htl, hle, fun p hp => ?_⟩
    obtain ⟨r', hr', hpost⟩ := myStrstrHash_hashed ht hs htl hle
    rw [hr] at hr'
    cases hr'
    have hrp : r = p := (finds_iff.1 hf).1 p hp
    rcases hpost with ⟨q, hq, -, hlt⟩ | ⟨hneg, -⟩
    · obtain rfl : p = q := by omega
      exact hlt
    · omega
  · intro hall
    obtain ⟨hs, htl, hle, hfirst⟩ := hall
    obtain ⟨r, hr, hpost⟩ := myStrstrHash_hashed ht hs htl hle
    refine ⟨r, hr, ?_⟩
    rcases hpost with ⟨p, hp, hat, -⟩ | ⟨hneg, hno⟩
    · exact .inl ⟨p, hp, hat⟩
    · refine .inr ⟨hneg, fun p hp => ?_⟩
      obtain ⟨q, -, hq⟩ := exists_firstAt hp
      exact hno q (hfirst q hq) hq.1

/-- "ab" has "b" at its last place, 1. -/
theorem myStrstrHash_misses :
    let b : CString := ⟨[98], by decide⟩
    let ab : CString := ⟨[97, 98], by decide⟩
    myStrstrHash ab.mem b.mem = .ok (-1) ∧ ¬ Finds ab.bytes b.bytes (-1) := by
  refine ⟨by decide, fun h => ?_⟩
  have := (finds_iff.1 h).1 1 ⟨by decide, by decide⟩
  omega

theorem myStrstrHash_finds_iff_sample :
    let b : CString := ⟨[226], by decide⟩
    let abc : CString := ⟨[97, 226, 99], by decide⟩
    ∃ r, myStrstrHash abc.mem b.mem = .ok r ∧ Finds abc.bytes b.bytes r := by
  refine (myStrstrHash_finds_iff (by simp)).2 ⟨by decide, by decide, by decide, fun p hp => ?_⟩
  have h1 : ¬ 1 < p := fun h => hp.2 1 h (by decide)
  simp only [List.length_cons, List.length_nil]
  omega

end SugarNSpice.Strstr
