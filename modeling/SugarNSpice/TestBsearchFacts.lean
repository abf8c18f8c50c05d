/-
When the two binary searches agree.

`high` is exclusive, so on the way left `high = mid - 1` drops the cell before
`mid` from the search, and no probe ever falls on cell 0. What the loop sees of
an array is only the number `p` of smaller elements and whether `data` is
there; which `p` it gets wrong depends on the intervals the length is halved
into (`Window`), not on the elements. In an interval with `p` strictly inside,
the probe at `mid` decides: `Misses` says for which `p` it decides wrongly.
-/
import SugarNSpice.TestBsearch
import SugarNSpice.SparseArrayFacts

namespace SugarNSpice.TestBsearch

open CLang SortedMap

/-! ## The specification -/

/-- How many elements are smaller. -/
def smaller (array : List Int) (data : Int) : Nat := array.countP (· < data)

/-- The position `p`, or its complement. -/
def answer (p : Nat) (found : Prop) [Decidable found] : Int := if found then p else bitNot p

/-- Both searches return the position of `data`, or the complement of the
number of smaller elements. -/
def SearchesAgree (array : List Int) (data : Int) : Prop :=
  binarySearch array data array.length = .ok (answer (smaller array data) (data ∈ array)) ∧
    SparseArray.binarySearch array data array.length = .ok (answer (smaller array data) (data ∈ array))

/-- The intervals `[low, high)` is halved into. -/
inductive Window : Nat → Nat → Nat → Nat → Prop
  | here (low high : Nat) : Window low high low high
  | left {low high lo hi : Nat} : low + 1 < high → Window low (middle low high - 1) lo hi → Window low high lo hi
  | right {low high lo hi : Nat} : low + 1 < high → Window (middle low high) high lo hi → Window low high lo hi

/-- The probe of `[lo, hi)` sends the search past `p`: where `data` is at `p`,
it is the cell dropped before the probe; where it is not, the last probe ends
up beside another place. -/
def Misses (lo hi p : Nat) (found : Prop) : Prop :=
  lo + 1 < hi ∧ (found ∧ p + 1 = middle lo hi ∧ lo + 2 ≤ middle lo hi ∨
    ¬ found ∧ (p + 1 = middle lo hi ∧ middle lo hi = lo + 2 ∨ p = middle lo hi ∧ lo + 3 ≤ middle lo hi))

theorem middle_bounds {lo hi : Nat} (h : lo + 1 < hi) : lo < middle lo hi ∧ middle lo hi < hi := by
  unfold middle
  omega

theorem Misses.inside {lo hi p : Nat} {found : Prop} (h : Misses lo hi p found) : lo < p ∧ p < hi := by
  obtain ⟨hlt, h⟩ := h
  have := middle_bounds hlt
  omega

/-- What an interval misses is at its probe or just before it. -/
theorem Misses.beside {lo hi p : Nat} {found : Prop} (h : Misses lo hi p found) :
    p = middle lo hi ∧ ¬ found ∨ p + 1 = middle lo hi := by
  obtain ⟨-, ⟨-, hp, -⟩ | ⟨hf, ⟨hp, -⟩ | ⟨hp, -⟩⟩⟩ := h
  · exact .inr hp
  · exact .inr hp
  · exact .inl ⟨hp, hf⟩

theorem Window.within {low high lo hi : Nat} (h : Window low high lo hi) : low ≤ lo ∧ hi ≤ high := by
  induction h with
  | here => omega
  | left hlt _ ih => have := middle_bounds hlt; omega
  | right hlt _ ih => have := middle_bounds hlt; omega

theorem Window.not_misses {low high lo hi p : Nat} {found : Prop} (h : Window low high lo hi)
    (hp : ¬ (low < p ∧ p < high)) : ¬ Misses lo hi p found := by
  intro hm
  have h1 := h.within
  have h2 := hm.inside
  omega

theorem forall_window_iff {low high p : Nat} {found : Prop} (hlt : low + 1 < high) :
    (∀ lo hi, Window low high lo hi → ¬ Misses lo hi p found) ↔
      ¬ Misses low high p found ∧ (∀ lo hi, Window low (middle low high - 1) lo hi → ¬ Misses lo hi p found) ∧
        ∀ lo hi, Window (middle low high) high lo hi → ¬ Misses lo hi p found := by
  constructor
  · intro h
    exact ⟨h _ _ (.here low high), fun lo hi hw => h lo hi (.left hlt hw), fun lo hi hw => h lo hi (.right hlt hw)⟩
  · intro h lo hi hw
    obtain ⟨hhere, hleft, hright⟩ := h
    cases hw with
    | here => exact hhere
    | left _ hw => exact hleft lo hi hw
    | right _ hw => exact hright lo hi hw

/-! ## What a turn sees -/

theorem smaller_cons_lt {array : List Int} {a data : Int} (h : a < data) :
    smaller (a :: array) data = smaller array data + 1 := by
  simp [smaller, h]

/-- Behind a first element that is not smaller nothing is, and `data` can only
be that element. -/
theorem smaller_cons_ge {array : List Int} {a data : Int} (ha : ∀ x ∈ array, a < x) (h : ¬ a < data) :
    smaller (a :: array) data = 0 ∧ (data ∈ a :: array ↔ a = data) := by
  constructor
  · rw [smaller, List.countP_eq_zero]
    intro x hx
    rcases List.mem_cons.1 hx with rfl | hx
    · simpa using h
    · have := ha x hx
      simp only [decide_eq_true_eq]
      omega
  · constructor
    · intro hx
      rcases List.mem_cons.1 hx with rfl | hx
      · rfl
      · have := ha data hx
        omega
    · rintro rfl
      exact List.mem_cons_self

/-- The elements of an ascending array, by how many are smaller than `data`. -/
theorem getElem_cases {array : List Int} (hs : array.Pairwise (· < ·)) (data : Int) {i : Nat} (hi : i < array.length) :
    (array[i] < data ↔ i < smaller array data) ∧ (array[i] = data ↔ i = smaller array data ∧ data ∈ array) := by
  induction array generalizing i with
  | nil => simp at hi
  | cons a array ih =>
    rw [List.pairwise_cons] at hs
    obtain ⟨ha, hs⟩ := hs
    by_cases hlt : a < data
    · have hrank := @smaller_cons_lt array a data hlt
      cases i with
      | zero =>
        simp only [List.getElem_cons_zero, hrank]
        omega
      | succ i =>
        obtain ⟨h1, h2⟩ := ih hs (by simpa using hi)
        simp only [List.getElem_cons_succ, hrank, List.mem_cons, h1, h2, show data ≠ a by omega, false_or,
          Nat.add_lt_add_iff_right, Nat.add_right_cancel_iff, and_self]
    · obtain ⟨hrank, hmem⟩ := smaller_cons_ge ha hlt
      cases i with
      | zero => simp only [List.getElem_cons_zero, hrank, hmem, true_and, hlt, Nat.lt_irrefl, and_self]
      | succ i =>
        have hi' : i < array.length := by simpa using hi
        have := ha array[i] (List.getElem_mem hi')
        simp only [List.getElem_cons_succ, hrank]
        omega

section Search

variable {array : List Int} {data : Int}

theorem searchTurn_probe (hs : array.Pairwise (· < ·)) {low high mid m : Nat} (hlt : low + 1 < high)
    (hhigh : high ≤ array.length) (hm : middle low high = m) :
    searchTurn array data ⟨low, high, mid⟩ = .ok
      (if m = smaller array data ∧ data ∈ array then .done m
        else if smaller array data ≤ m then .next ⟨low, m - 1, m⟩ else .next ⟨m, high, m⟩) := by
  have hlen : m < array.length := by have := middle_bounds hlt; omega
  obtain ⟨h1, h2⟩ := getElem_cases hs data hlen
  unfold searchTurn
  simp only [hlt, if_true, hm, load_ok hlen, ok_bind]
  rcases Int.lt_trichotomy data array[m] with hd | hd | hd
  · rw [if_neg (by omega), if_pos hd, if_neg (fun h => absurd (h2.2 h) (by omega)), if_pos (by omega)]
  · rw [if_pos hd, if_pos (h2.1 hd.symm)]
  · rw [if_neg (by omega), if_neg (by omega), if_neg (fun h => absurd (h2.2 h) (by omega)), if_neg (by omega)]

/-- The place the code takes for `data` after a last probe at `mid`. -/
def besides (p mid : Nat) : Nat := if mid < p then mid + 1 else mid

theorem searchTurn_end (hs : array.Pairwise (· < ·)) {low high mid : Nat} (hlt : ¬ low + 1 < high)
    (hmid : mid < array.length) :
    searchTurn array data ⟨low, high, mid⟩ = .ok (.done (bitNot (besides (smaller array data) mid))) := by
  obtain ⟨h1, -⟩ := getElem_cases hs data hmid
  unfold searchTurn besides
  simp only [hlt, if_false, load_ok hmid, ok_bind]
  by_cases hd : array[mid] < data
  · rw [if_pos hd, if_pos (h1.1 hd)]
    rfl
  · rw [if_neg hd, if_neg fun h => hd (h1.2 h)]

/-! ## Runs of the loop -/

/-- Every probe is before the place: the last one is at `high - 1`. -/
theorem loop_right (hs : array.Pairwise (· < ·)) {k : Nat} :
    ∀ {low high mid : Nat}, high - low < k → high ≤ smaller array data → high ≤ array.length → mid < array.length →
      loop (searchTurn array data) k ⟨low, high, mid⟩ =
        .ok (bitNot (besides (smaller array data) (if low + 1 < high then high - 1 else mid))) := by
  induction k with
  | zero => intro low high mid hk; omega
  | succ k ih =>
    intro low high mid hk hp hhigh hmid
    by_cases hlt : low + 1 < high
    · generalize hm : middle low high = m
      have hbounds := middle_bounds hlt
      have hturn : searchTurn array data ⟨low, high, mid⟩ = .ok (.next ⟨m, high, m⟩) := by
        rw [searchTurn_probe hs hlt hhigh hm, if_neg (by omega), if_neg (by omega)]
      have hlast : (if m + 1 < high then high - 1 else m) = high - 1 := by split <;> omega
      rw [loop_next hturn, ih (by omega) hp hhigh (by omega), if_pos hlt, hlast]
    · rw [if_neg hlt, loop_done (searchTurn_end hs hlt hmid)]

/-- Nothing is smaller, and cell 0 is never probed: the answer is a place
after it. -/
theorem loop_leftmost (hs : array.Pairwise (· < ·)) (hp : smaller array data = 0) {k : Nat} :
    ∀ {high mid : Nat}, high < k → high ≤ array.length → mid < array.length → 1 < high ∨ 1 ≤ mid →
      ∃ m : Nat, 1 ≤ m ∧ loop (searchTurn array data) k ⟨0, high, mid⟩ = .ok (bitNot m) := by
  induction k with
  | zero => intro high mid hk; omega
  | succ k ih =>
    intro high mid hk hhigh hmid hpos
    by_cases hlt : 0 + 1 < high
    · generalize hm : middle 0 high = m
      have hbounds := middle_bounds hlt
      have hturn : searchTurn array data ⟨0, high, mid⟩ = .ok (.next ⟨0, m - 1, m⟩) := by
        rw [searchTurn_probe hs hlt hhigh hm, if_neg (by omega), if_pos (by omega)]
      rw [loop_next hturn]
      exact ih (by omega) (by omega) (by omega) (.inr (by omega))
    · refine ⟨mid, by omega, ?_⟩
      rw [loop_done (searchTurn_end hs hlt hmid), hp, besides, if_neg (by omega)]

theorem bitNot_ne_answer {p : Nat} {found : Prop} [Decidable found] (m : Nat) (hf : found) :
    bitNot m ≠ answer p found := by
  rw [answer, if_pos hf]
  unfold bitNot
  omega

theorem bitNot_eq_answer_iff {p m : Nat} {found : Prop} [Decidable found] (hf : ¬ found) :
    bitNot m = answer p found ↔ m = p := by
  rw [answer, if_neg hf]
  unfold bitNot
  omega

/-- A turn to the left with the place at the probe or just before it: all
later probes are before the place. -/
theorem loop_dropped (hs : array.Pairwise (· < ·)) {k low high m : Nat} (hk : m - 1 - low < k)
    (hlow : low < smaller array data) (hm : m < array.length) (hlt : low + 1 < high) (hmid : middle low high = m)
    (hp : smaller array data = m ∧ data ∉ array ∨ smaller array data + 1 = m) :
    loop (searchTurn array data) k ⟨low, m - 1, m⟩ = .ok (answer (smaller array data) (data ∈ array)) ↔
      ¬ Misses low high (smaller array data) (data ∈ array) := by
  rw [loop_right hs hk (by omega) (by omega) hm, Except.ok.injEq]
  by_cases hf : data ∈ array
  · have hp' : smaller array data + 1 = m := hp.resolve_left fun h => h.2 hf
    refine ⟨fun h => absurd h (bitNot_ne_answer _ hf), fun h => absurd ⟨hlt, .inl ⟨hf, ?_, ?_⟩⟩ h⟩
    · rw [hmid, hp']
    · omega
  · rw [bitNot_eq_answer_iff hf]
    unfold Misses besides
    simp only [hmid, hf, not_false_eq_true, false_and, false_or, true_and]
    split <;> split <;> omega

/-- **From an interval with the place strictly inside it**, the answer is
right exactly when none of the intervals it is halved into misses the place. -/
theorem loop_inside (hs : array.Pairwise (· < ·)) {k : Nat} :
    ∀ {low high mid : Nat}, high - low < k → low < smaller array data → smaller array data < high →
      high ≤ array.length →
      (loop (searchTurn array data) k ⟨low, high, mid⟩ = .ok (answer (smaller array data) (data ∈ array)) ↔
        ∀ lo hi, Window low high lo hi → ¬ Misses lo hi (smaller array data) (data ∈ array)) := by
  induction k with
  | zero => intro low high mid hk; omega
  | succ k ih =>
    intro low high mid hk hlow hp hhigh
    have hlt : low + 1 < high := by omega
    have hbounds := middle_bounds hlt
    have hself := @Misses.beside low high (smaller array data) (data ∈ array)
    rw [forall_window_iff hlt]
    generalize hm : middle low high = m at *
    have hprobe := @searchTurn_probe array data hs low high mid m hlt hhigh hm
    rcases Nat.lt_or_ge m (smaller array data) with hgt | hle
    · -- On to the right: the left part has not got the place.
      rw [if_neg (by omega), if_neg (by omega)] at hprobe
      rw [loop_next hprobe, ih (by omega) hgt hp hhigh]
      refine ⟨fun h => ⟨fun hm => by have := hself hm; omega, fun lo hi hw => ?_, h⟩, fun h => h.2.2⟩
      exact hw.not_misses (by omega)
    · have hright : ∀ lo hi, Window m high lo hi → ¬ Misses lo hi (smaller array data) (data ∈ array) :=
        fun lo hi hw => hw.not_misses (by omega)
      by_cases hfound : m = smaller array data ∧ data ∈ array
      · rw [if_pos hfound] at hprobe
        have hno : ¬ Misses low high (smaller array data) (data ∈ array) := by
          intro hmiss
          rcases hself hmiss with ⟨-, hf⟩ | hbefore
          · exact hf hfound.2
          · omega
        rw [loop_done hprobe, Except.ok.injEq, answer, if_pos hfound.2, hfound.1]
        exact ⟨fun _ => ⟨hno, fun lo hi hw => hw.not_misses (by omega), hfound.1 ▸ hright⟩, fun _ => rfl⟩
      · rw [if_neg hfound, if_pos hle] at hprobe
        rw [loop_next hprobe]
        rcases Nat.lt_or_ge (smaller array data) (m - 1) with hin | hout
        · -- On to the left, with the place still inside.
          rw [ih (by omega) hlow hin (by omega)]
          exact ⟨fun h => ⟨fun hmiss => by have := hself hmiss; omega, h, hright⟩, fun h => h.2.1⟩
        · have hat : smaller array data = m ∧ data ∉ array ∨ smaller array data + 1 = m := by
            rcases Nat.lt_or_eq_of_le hle with hbefore | heq
            · exact .inr (by omega)
            · exact .inl ⟨heq, fun hf => hfound ⟨heq.symm, hf⟩⟩
          rw [loop_dropped hs (by omega) hlow (by omega) hlt hm hat]
          exact ⟨fun h => ⟨h, fun lo hi hw => hw.not_misses (by omega), hright⟩, fun h => h.1⟩

end Search

/-! ## The two searches -/

theorem sparseArray_binarySearch {array : List Int} (hs : array.Pairwise (· < ·)) (data : Int) :
    SparseArray.binarySearch array data array.length = .ok (answer (smaller array data) (data ∈ array)) := by
  have hsorted : (array.take array.length).Pairwise (· ≤ ·) := by
    rw [List.take_length]
    exact hs.imp fun hlt => Int.le_of_lt hlt
  rcases SparseArray.binarySearch_spec hsorted (Nat.le_refl _) data with ⟨m, hb, hm, hget⟩ | ⟨p, hb, hplace⟩
  · rw [List.getElem?_eq_getElem hm, Option.some.injEq] at hget
    obtain ⟨rfl, hf⟩ := (getElem_cases hs data hm).2.1 hget
    rw [hb, answer, if_pos hf]
  · rw [List.take_length] at hplace
    have hp : smaller array data = p := hplace.countP_eq
    rw [hb, answer, if_neg hplace.not_mem, hp]

/-- Nothing is smaller: right only for an array of one element that is not
`data`. -/
theorem binarySearch_none_smaller {array : List Int} {data : Int} (hs : array.Pairwise (· < ·))
    (hlen : 0 < array.length) (hp : smaller array data = 0) :
    binarySearch array data array.length = .ok (answer (smaller array data) (data ∈ array)) ↔
      array.length = 1 ∧ data ∉ array := by
  rw [binarySearch]
  by_cases h1 : array.length = 1
  · rw [loop_done (searchTurn_end hs (by omega) hlen), Except.ok.injEq]
    by_cases hf : data ∈ array
    · exact ⟨fun h => absurd h (bitNot_ne_answer _ hf), fun h => absurd hf h.2⟩
    · rw [bitNot_eq_answer_iff hf, besides, if_neg (by omega)]
      exact ⟨fun _ => ⟨h1, hf⟩, fun _ => hp.symm⟩
  · obtain ⟨m, hm, hloop⟩ := loop_leftmost hs hp (Nat.lt_succ_self array.length) (Nat.le_refl _) hlen
      (.inl (by omega))
    rw [hloop, Except.ok.injEq]
    refine ⟨fun h => ?_, fun h => absurd h.1 h1⟩
    by_cases hf : data ∈ array
    · exact absurd h (bitNot_ne_answer _ hf)
    · rw [bitNot_eq_answer_iff hf] at h
      omega

/-- Everything is smaller: `data` is not there, and the probes end at the last
cell. -/
theorem binarySearch_all_smaller {array : List Int} {data : Int} (hs : array.Pairwise (· < ·))
    (hlen : 0 < array.length) (hp : smaller array data = array.length) :
    binarySearch array data array.length = .ok (answer (smaller array data) (data ∈ array)) := by
  have hf : data ∉ array := by
    intro hf
    obtain ⟨i, hi, hget⟩ := List.getElem_of_mem hf
    have := ((getElem_cases hs data hi).2.1 hget).1
    omega
  rw [binarySearch, loop_right hs (by omega) (by omega) (Nat.le_refl _) hlen, Except.ok.injEq, bitNot_eq_answer_iff hf,
    besides, if_pos (by split <;> omega)]
  split <;> omega

/-- **When the two searches agree.** For every strictly ascending array with an
element and every `data`, with `p` elements smaller than it: both return its
position, or the complement of `p`, exactly when none of the intervals the
length is halved into misses `p`, and `p` is not 0 unless the array has one
element and `data` is not it. -/
theorem searchesAgree_iff {array : List Int} (hs : array.Pairwise (· < ·)) (hne : array ≠ []) (data : Int) :
    SearchesAgree array data ↔
      (smaller array data = 0 → array.length = 1 ∧ data ∉ array) ∧
        ∀ lo hi, Window 0 array.length lo hi → ¬ Misses lo hi (smaller array data) (data ∈ array) := by
  have hlen : 0 < array.length := List.length_pos_iff.2 hne
  have hle : smaller array data ≤ array.length := List.countP_le_length
  unfold SearchesAgree
  rw [and_iff_left (sparseArray_binarySearch hs data)]
  rcases Nat.eq_zero_or_pos (smaller array data) with hp | hp
  · have hno : ∀ lo hi, Window 0 array.length lo hi → ¬ Misses lo hi (smaller array data) (data ∈ array) :=
      fun lo hi hw => hw.not_misses (by omega)
    rw [and_iff_left hno, forall_prop_of_true hp]
    exact binarySearch_none_smaller hs hlen hp
  · rw [and_iff_right fun h => absurd h (by omega)]
    rcases Nat.lt_or_eq_of_le hle with hlt | heq
    · exact loop_inside hs (by omega) hp hlt (Nat.le_refl _)
    · exact ⟨fun _ lo hi hw => hw.not_misses (by omega), fun _ => binarySearch_all_smaller hs hlen heq⟩

/-- The one element of an array is not found. -/
theorem binarySearch_misses_only :
    binarySearch [5] 5 1 = .ok (-1) ∧ SparseArray.binarySearch [5] 5 1 = .ok 0 ∧ ¬ SearchesAgree [5] 5 := by
  refine ⟨by decide, by decide, fun h => ?_⟩
  exact absurd h.1 (by decide)

theorem searchesAgree_iff_sample : SearchesAgree [3, 8] 5 := by
  refine (searchesAgree_iff (by decide) (by simp) 5).2 ⟨by decide, fun lo hi hw hm => ?_⟩
  have hwithin := hw.within
  have hinside := hm.inside
  have hp : smaller [3, 8] 5 = 1 := by decide
  simp only [List.length_cons, List.length_nil] at hwithin
  obtain rfl : lo = 0 := by omega
  obtain rfl : hi = 2 := by omega
  revert hm
  unfold Misses
  decide

end SugarNSpice.TestBsearch
