/-
`test_sparse_array.c` implements a finite map from `int` to objects.

`binarySearch_spec` is the search; `Holds` is the representation invariant,
`sparseArraySet_spec` and `sparseArrayGet_spec` what one call does to it, for
every outcome of the allocator, and `runSets_holds` a whole run.
-/
import SugarNSpice.SparseArray
import SugarNSpice.SortedMap

namespace SugarNSpice.SparseArray

open CLang SortedMap

/-! ## The search -/

/-- What `binary_search`'s loop keeps: everything before `low` is smaller
than `data`, everything from `high` on larger. -/
structure Narrowed (array : List Int) (data : Int) (n : Nat) (s : Bounds) : Prop where
  le : s.low ≤ s.high
  high : s.high ≤ n
  before : ∀ i x, array[i]? = some x → i < s.low → x < data
  after : ∀ i x, array[i]? = some x → s.high ≤ i → i < n → data < x
  /-- `mid` is the bound that moved last, if one has. -/
  mid : (s.low = 0 ∧ s.high = n ∧ s.mid = 0) ∨ (s.mid = s.high ∧ s.high < n) ∨ s.mid + 1 = s.low

/-- Where the loop may leave `mid`: at `data`, or beside the place where
`data` would go. -/
inductive Left (array : List Int) (data : Int) (n mid : Nat) : Prop
  | found : array[mid]? = some data → Left array data n mid
  | below {x : Int} : array[mid]? = some x → data < x → Place (array.take n) data mid → Left array data n mid
  | above {x : Int} : array[mid]? = some x → x < data → Place (array.take n) data (mid + 1) → Left array data n mid

theorem sorted_getElem? {array : List Int} {n i j : Nat} {x y : Int} (hs : (array.take n).Pairwise (· ≤ ·))
    (hx : array[i]? = some x) (hy : array[j]? = some y) (hij : i ≤ j) (hj : j < n) : x ≤ y := by
  obtain ⟨hi', rfl⟩ := List.getElem?_eq_some_iff.1 hx
  obtain ⟨hj', rfl⟩ := List.getElem?_eq_some_iff.1 hy
  rcases Nat.lt_or_eq_of_le hij with hlt | rfl
  · have := List.pairwise_iff_getElem.1 hs i j (by simp; omega) (by simp; omega) hlt
    simpa using this
  · exact Int.le_refl _

/-- With nothing between the bounds, they are the place of `data`. -/
theorem Narrowed.place {array : List Int} {data : Int} {n : Nat} {s : Bounds} (h : Narrowed array data n s)
    (hn : n ≤ array.length) (he : s.low = s.high) : Place (array.take n) data s.high := by
  refine ⟨by simpa using ⟨h.high, by have := h.high; omega⟩, fun x hx => ?_, fun x hx => ?_⟩
  · obtain ⟨i, hi, rfl⟩ := List.getElem_of_mem hx
    simp only [List.length_take] at hi
    exact h.before i _ (by simp) (by omega)
  · obtain ⟨i, hi, rfl⟩ := List.getElem_of_mem hx
    simp only [List.length_drop, List.length_take] at hi
    exact h.after (s.high + i) _ (by simp) (by omega) (by omega)

theorem Narrowed.left {array : List Int} {data x : Int} {n m : Nat} {s : Bounds}
    (hs : (array.take n).Pairwise (· ≤ ·)) (h : Narrowed array data n s) (hlow : s.low ≤ m) (hhigh : m < s.high)
    (hget : array[m]? = some x) (hd : data < x) : Narrowed array data n ⟨s.low, m, m⟩ := by
  have := h.high
  refine ⟨hlow, by simp only; omega, h.before, fun i y hy hi hin => ?_, .inr (.inl ⟨rfl, by simp only; omega⟩)⟩
  exact Int.lt_of_lt_of_le hd (sorted_getElem? hs hget hy hi hin)

theorem Narrowed.right {array : List Int} {data x : Int} {n m : Nat} {s : Bounds}
    (hs : (array.take n).Pairwise (· ≤ ·)) (h : Narrowed array data n s) (hhigh : m < s.high)
    (hget : array[m]? = some x) (hd : x < data) : Narrowed array data n ⟨m + 1, s.high, m⟩ := by
  have := h.high
  refine ⟨hhigh, h.high, fun i y hy hi => ?_, h.after, .inr (.inr rfl)⟩
  exact Int.lt_of_le_of_lt (sorted_getElem? hs hy hget (Nat.lt_succ_iff.1 hi) (by omega)) hd

/-- With nothing between the bounds, `mid` is beside the place. -/
theorem Narrowed.ends {array : List Int} {data : Int} {n : Nat} {s : Bounds} (hn : n ≤ array.length) (h0 : 0 < n)
    (h : Narrowed array data n s) (he : s.low = s.high) : s.mid < n ∧ Left array data n s.mid := by
  have hp := h.place hn he
  have hhigh := h.high
  rcases h.mid with ⟨h1, h2, -⟩ | ⟨h1, h2⟩ | h1
  · omega
  · have hget : array[s.mid]? = some array[s.mid] := List.getElem?_eq_getElem (by omega)
    exact ⟨by omega, .below hget (h.after s.mid _ hget (Nat.le_of_eq h1.symm) (by omega)) (h1 ▸ hp)⟩
  · have hget : array[s.mid]? = some array[s.mid] := List.getElem?_eq_getElem (by omega)
    refine ⟨by omega, .above hget (h.before s.mid _ hget (by omega)) ?_⟩
    rw [h1, he]
    exact hp

theorem narrowed_first (array : List Int) (data : Int) (n : Nat) : Narrowed array data n ⟨0, n, 0⟩ :=
  ⟨Nat.zero_le n, Nat.le_refl n, by simp, by simp only; omega, .inl ⟨rfl, rfl, rfl⟩⟩

theorem searchTurn_narrowed {array : List Int} {n : Nat} (hs : (array.take n).Pairwise (· ≤ ·))
    (hn : n ≤ array.length) (h0 : 0 < n) (data : Int) (s : Bounds) (h : Narrowed array data n s) :
    (∃ s', searchTurn array data s = .ok (.next s') ∧ Narrowed array data n s' ∧
      s'.high - s'.low < s.high - s.low) ∨
      ∃ r, searchTurn array data s = .ok (.done r) ∧ r < n ∧ Left array data n r := by
  have hle := h.le
  have hhi := h.high
  unfold searchTurn
  by_cases hlt : s.low < s.high
  · have hm : s.low + (s.high - s.low) / 2 < s.high := by omega
    generalize hmid : s.low + (s.high - s.low) / 2 = m at hm
    have hget : array[m]? = some array[m] := List.getElem?_eq_getElem (by omega)
    simp only [hlt, if_true, load_ok (show m < array.length by omega), ok_bind]
    rcases Int.lt_trichotomy data array[m] with hd | hd | hd
    · left
      simp only [Int.ne_of_lt hd, hd, if_false, if_true]
      exact ⟨_, rfl, h.left hs (by omega) hm hget hd, by simp only; omega⟩
    · right
      simp only [← hd, if_true]
      exact ⟨m, rfl, by omega, .found (by rw [hget, ← hd])⟩
    · left
      simp only [show data ≠ array[m] by omega, show ¬ data < array[m] by omega, if_false]
      exact ⟨_, rfl, h.right hs hm hget hd, by simp only; omega⟩
  · right
    rw [if_neg hlt]
    exact ⟨s.mid, rfl, h.ends hn h0 (by omega)⟩

/-- **The loop** ends beside the place of `data`, or at `data`. -/
theorem searchLoop_left {array : List Int} {n : Nat} (hs : (array.take n).Pairwise (· ≤ ·)) (hn : n ≤ array.length)
    (h0 : 0 < n) (data : Int) :
    ∃ mid, loop (searchTurn array data) (n + 1) ⟨0, n, 0⟩ = .ok mid ∧ mid < n ∧ Left array data n mid :=
  loop_total (fun s : Bounds => s.high - s.low) (searchTurn_narrowed hs hn h0 data) (narrowed_first array data n)
    (by simp only; omega)

/-- **`binary_search`** on an ascending array: a position that holds `data`,
or `~p` for the place `p` where `data` would go. -/
theorem binarySearch_spec {array : List Int} {n : Nat} (hs : (array.take n).Pairwise (· ≤ ·))
    (hn : n ≤ array.length) (data : Int) :
    (∃ m : Nat, binarySearch array data n = .ok m ∧ m < n ∧ array[m]? = some data) ∨
      ∃ p : Nat, binarySearch array data n = .ok (bitNot p) ∧ Place (array.take n) data p := by
  unfold binarySearch
  by_cases h0 : n = 0
  · subst h0
    right
    exact ⟨0, by simp, by simp, by simp, by simp⟩
  · obtain ⟨m, hl, hm, hleft⟩ := searchLoop_left hs hn (Nat.pos_of_ne_zero h0) data
    simp only [h0, if_false, hl, ok_bind, load_ok (show m < array.length by omega)]
    have hget : array[m]? = some array[m] := List.getElem?_eq_getElem (by omega)
    cases hleft with
    | found hx =>
      rw [hget, Option.some.injEq] at hx
      left
      exact ⟨m, by simp [hx], hm, by rw [hget, hx]⟩
    | below hx hlt hp =>
      rw [hget, Option.some.injEq] at hx
      subst hx
      right
      exact ⟨m, by simp [show array[m] ≠ data by omega, show ¬ data > array[m] by omega], hp⟩
    | above hx hlt hp =>
      rw [hget, Option.some.injEq] at hx
      subst hx
      right
      refine ⟨m + 1, by simp [show array[m] ≠ data by omega, show data > array[m] from hlt], hp⟩

/-- The cell a turn compares with, if it compares. -/
def probe (s : Bounds) : Option Nat := if s.low < s.high then some (s.low + (s.high - s.low) / 2) else none

/-- The cells the loop compares with, in order. -/
def probes (array : List Int) (data : Int) (k : Nat) (s : Bounds) : List Nat :=
  (begun (searchTurn array data) k s).filterMap probe

/-- A turn that compares leaves `mid` at the cell it compares with. -/
theorem searchTurn_mid {array : List Int} {data : Int} {s : Bounds} {t : Turn Bounds Nat}
    (h : searchTurn array data s = .ok t) :
    (∃ s', t = .next s' ∧ probe s = some s'.mid) ∨ ∃ m, t = .done m ∧ (probe s).getD s.mid = m := by
  unfold searchTurn at h
  unfold probe
  split at h
  next hlt =>
    obtain ⟨x, -, h⟩ := bind_ok_iff.1 h
    rw [if_pos hlt]
    split at h
    · cases h
      exact .inr ⟨_, rfl, rfl⟩
    split at h
    · cases h
      exact .inl ⟨_, rfl, rfl⟩
    · cases h
      exact .inl ⟨_, rfl, rfl⟩
  next hge =>
    cases h
    rw [if_neg hge]
    exact .inr ⟨_, rfl, rfl⟩

/-- `mid` is left at the last of them. -/
theorem getLast?_probes {array : List Int} {data : Int} {k mid : Nat} :
    ∀ {s : Bounds}, loop (searchTurn array data) k s = .ok mid →
      (probes array data k s).getLast?.getD s.mid = mid := by
  induction k with
  | zero => intro s h; cases h
  | succ k ih =>
    intro s h
    obtain ⟨t, hturn, -⟩ := bind_ok_iff.1 h
    obtain ⟨s', rfl, hprobe⟩ | ⟨m, rfl, hprobe⟩ := searchTurn_mid hturn
    · rw [loop_next hturn] at h
      rw [probes, begun_next hturn, List.filterMap_cons, hprobe, List.getLast?_cons]
      exact ih h
    · rw [loop_done hturn] at h
      cases h
      rw [probes, begun_done hturn, ← hprobe]
      cases hp : probe s <;> simp [hp]

theorem probes_lt {array : List Int} {length : Nat} (hs : (array.take length).Pairwise (· ≤ ·))
    (hlen : length ≤ array.length) (data : Int) :
    ∀ i ∈ probes array data (length + 1) ⟨0, length, 0⟩, i < length := by
  intro i hi
  obtain ⟨s, hbegun, hp⟩ := List.mem_filterMap.1 hi
  have hhigh : s.high ≤ length := by
    rcases Nat.eq_zero_or_pos length with rfl | h0
    · have hturn : searchTurn array data ⟨0, 0, 0⟩ = .ok (.done 0) := rfl
      rw [begun_done hturn, List.mem_singleton] at hbegun
      exact hbegun ▸ Nat.le_refl 0
    · exact (begun_keeps (searchTurn_narrowed hs hlen h0 data) hbegun (narrowed_first array data length)).high
  unfold probe at hp
  split at hp
  · cases hp
    omega
  · cases hp

/-- The result is what the comparison with the last of them says. -/
theorem binarySearch_last {array : List Int} {length : Nat} (hs : (array.take length).Pairwise (· ≤ ·))
    (hlen : length ≤ array.length) (data : Int) (h0 : 0 < length) :
    ∃ mid x, (probes array data (length + 1) ⟨0, length, 0⟩).getLast? = some mid ∧ array[mid]? = some x ∧
      binarySearch array data length =
        .ok (if x = data then (mid : Int) else if x < data then bitNot (mid + 1) else bitNot mid) := by
  obtain ⟨mid, hloop, hmid, -⟩ := searchLoop_left hs hlen h0 data
  refine ⟨mid, array[mid], ?_, List.getElem?_eq_getElem (by omega), ?_⟩
  · have hend := getLast?_probes hloop
    cases hl : (probes array data (length + 1) ⟨0, length, 0⟩).getLast? with
    | some m =>
      rw [hl] at hend
      exact congrArg some hend
    | none =>
      -- The first turn compares, so the list is not empty.
      rw [List.getLast?_eq_none_iff, probes, begun, List.filterMap_cons, probe, if_pos h0] at hl
      cases hl
  · unfold binarySearch
    simp only [Nat.ne_of_gt h0, if_false, hloop, ok_bind, load_ok (show mid < array.length by omega)]
    split
    · rfl
    · split <;> rfl

/-- **`binary_search` is correct.** For every ascending array, duplicates
allowed, of any length and every `data`: it returns; it compares only with
cells of the array; the result is a position of `data` exactly when `data`
occurs, and otherwise the complement of the number of smaller elements; and it
is what the comparison with the last cell it came to says. -/
theorem binarySearch_correct {array : List Int} {length : Nat} (hs : (array.take length).Pairwise (· ≤ ·))
    (hlen : length ≤ array.length) (data : Int) :
    ∃ r, binarySearch array data length = .ok r ∧
      (∀ i ∈ probes array data (length + 1) ⟨0, length, 0⟩, i < length) ∧
      (0 ≤ r ↔ data ∈ array.take length) ∧
      (0 ≤ r → r < length ∧ array[r.toNat]? = some data) ∧
      (r < 0 → r = bitNot ((array.take length).countP (· < data))) ∧
      (0 < length → ∃ mid x, (probes array data (length + 1) ⟨0, length, 0⟩).getLast? = some mid ∧
        array[mid]? = some x ∧
        r = if x = data then (mid : Int) else if x < data then bitNot (mid + 1) else bitNot mid) := by
  have hprobes := probes_lt hs hlen data
  have hlast : ∀ r, binarySearch array data length = .ok r → 0 < length →
      ∃ mid x, (probes array data (length + 1) ⟨0, length, 0⟩).getLast? = some mid ∧ array[mid]? = some x ∧
        r = if x = data then (mid : Int) else if x < data then bitNot (mid + 1) else bitNot mid := by
    intro r hb h0
    obtain ⟨mid, x, hl, hx, hr⟩ := binarySearch_last hs hlen data h0
    exact ⟨mid, x, hl, hx, Except.ok.inj (hb.symm.trans hr)⟩
  rcases binarySearch_spec hs hlen data with ⟨m, hb, hm, hget⟩ | ⟨p, hb, hplace⟩
  · have hmem : data ∈ array.take length := List.mem_of_getElem? (by rw [List.getElem?_take_of_lt hm, hget])
    exact ⟨m, hb, hprobes, ⟨fun _ => hmem, fun _ => Int.natCast_nonneg m⟩, fun _ => ⟨Int.ofNat_lt.2 hm, hget⟩,
      fun h => by omega, hlast m hb⟩
  · have hneg : ¬ 0 ≤ bitNot (p : Int) := by have := bitNot_neg_iff.2 (Int.natCast_nonneg p); omega
    exact ⟨bitNot p, hb, hprobes, ⟨fun h => absurd h hneg, fun h => absurd h hplace.not_mem⟩,
      fun h => absurd h hneg, fun _ => by rw [hplace.countP_eq], hlast _ hb⟩

/-- 4 among duplicates: not there, after three smaller ones. -/
theorem binarySearch_correct_sample : ∃ r, binarySearch [1, 3, 3, 7, 7] 4 5 = .ok r ∧ r = bitNot 3 := by
  obtain ⟨r, hr, -, hiff, -, hmissing, -⟩ := @binarySearch_correct [1, 3, 3, 7, 7] 5 (by decide) (by decide) 4
  have hneg : r < 0 := by
    by_contra h
    exact absurd (hiff.1 (by omega)) (by decide)
  exact ⟨r, hr, hmissing hneg⟩

/-! ## The representation invariant -/

/-- The capacity `sparse_array_set` arrives at: doubled only when it was full. -/
def Capacity (size nrObjs : Nat) : Prop := ∃ k, size = initLen * 2 ^ k ∧ (k = 0 ∨ size < 2 * nrObjs)

section

variable {α : Type}

/-- `sa` holds the finite map `m`: the first `nr_objs` cells of the two
buffers are its keys, ascending, and their objects, and both buffers have
`size` cells at least. -/
structure Holds (sa : SparseArrayT α) (m : Int → Option α) : Prop where
  rep : Rep (sa.indices.take sa.nrObjs) (sa.objs.take sa.nrObjs) m
  le : sa.nrObjs ≤ sa.size
  indices : sa.size ≤ sa.indices.length
  objs : sa.size ≤ sa.objs.length
  capacity : Capacity sa.size sa.nrObjs

theorem Holds.search {sa : SparseArrayT α} {m : Int → Option α} (h : Holds sa m) (q : Int) :
    (∃ p : Nat, binarySearch sa.indices q sa.nrObjs = .ok p ∧ p < sa.nrObjs ∧ sa.indices[p]? = some q) ∨
      ∃ p : Nat, binarySearch sa.indices q sa.nrObjs = .ok (bitNot p) ∧ Place (sa.indices.take sa.nrObjs) q p :=
  binarySearch_spec (h.rep.sorted.imp fun hlt => Int.le_of_lt hlt) (Nat.le_trans h.le h.indices) q

theorem sparseArrayCreate_holds {ao : Alloc α} {ai : Alloc Int} (ho : ao.ok = true) (hi : ai.ok = true) :
    ∃ sa, sparseArrayCreate true ao ai = some sa ∧ Holds sa fun _ => none := by
  refine ⟨_, if_pos rfl, ?_, by simp, ?_, ?_, 0, by simp, .inl rfl⟩
  · simpa using Rep.nil
  · simp [Alloc.malloc_ok hi]
  · simp [Alloc.malloc_ok ho]

theorem sparseArrayGet_spec {sa : SparseArrayT α} {m : Int → Option α} (h : Holds sa m) (q : Int) (obj : α) :
    sparseArrayGet sa q obj = .ok (match m q with | some o => (0, o) | none => (-1, obj)) := by
  unfold sparseArrayGet
  rcases h.search q with ⟨p, hb, hp, hq⟩ | ⟨p, hb, hp⟩
  · have hlt : p < sa.objs.length := by have := h.le; have := h.objs; omega
    have hm : m q = some sa.objs[p] := by
      rw [h.rep.value (p := p) (by rw [List.getElem?_take_of_lt hp, hq]), List.getElem?_take_of_lt hp,
        List.getElem?_eq_getElem hlt]
    simp [hb, load_ok hlt, hm]
  · simp only [hb, ok_bind, h.rep.only hp.not_mem, show ¬ 0 ≤ bitNot (p : Int) by unfold bitNot; omega, if_false]

/-- `sa` holds `m` and has a free cell in both buffers. -/
structure Room (sa : SparseArrayT α) (m : Int → Option α) : Prop where
  rep : Rep (sa.indices.take sa.nrObjs) (sa.objs.take sa.nrObjs) m
  lt : sa.nrObjs < sa.size
  indices : sa.size ≤ sa.indices.length
  objs : sa.size ≤ sa.objs.length
  capacity : Capacity sa.size (sa.nrObjs + 1)

/-- A `realloc` fails, the first or the second: the map is untouched, though
`indices` may have grown. -/
theorem growIfFull_fails {sa : SparseArrayT α} {m : Int → Option α} (h : Holds sa m) (hfull : sa.nrObjs = sa.size)
    {ai : Alloc Int} {ao : Alloc α} (hfail : (ai.ok && ao.ok) = false) :
    ∃ sa', growIfFull sa ai ao = .ok (.error (sa', -enomem)) ∧ Holds sa' m ∧ sa'.nrObjs = sa.nrObjs ∧
      sa'.size = sa.size := by
  have hli := h.indices
  unfold growIfFull
  rw [if_pos hfull]
  cases hi : ai.ok with
  | false => exact ⟨sa, by rw [Alloc.realloc_fail hi], h, rfl, rfl⟩
  | true =>
    have ho : ao.ok = false := by simpa [hi] using hfail
    obtain ⟨b, hb, hbl, hbt⟩ := Alloc.realloc_ok hi sa.indices (sa.size * 2)
    have hbt := hbt sa.size hli (by omega)
    refine ⟨{ sa with indices := b }, by simp only [hb, Alloc.realloc_fail ho],
      ⟨?_, h.le, by simp only; omega, h.objs, h.capacity⟩, rfl, rfl⟩
    simpa only [hfull, hbt] using h.rep

/-- The room for one more pair: it was there, or both `realloc`s doubled the
buffers, or one failed and the map is untouched. -/
theorem growIfFull_spec {sa : SparseArrayT α} {m : Int → Option α} (h : Holds sa m) (hroom : sa.nrObjs < 2 ^ 30)
    (ai : Alloc Int) (ao : Alloc α) :
    (∃ sa' arr, growIfFull sa ai ao = .ok (.ok (sa', arr)) ∧ Room sa' m ∧
      sa'.indices.take sa'.nrObjs = sa.indices.take sa.nrObjs) ∨
      ∃ sa', growIfFull sa ai ao = .ok (.error (sa', -enomem)) ∧ (ai.ok && ao.ok) = false ∧ Holds sa' m ∧
        sa'.nrObjs = sa.nrObjs ∧ sa'.size = sa.size := by
  have hle := h.le
  have hli := h.indices
  have hlo := h.objs
  obtain ⟨k, hk, hc⟩ := h.capacity
  by_cases hfull : sa.nrObjs = sa.size
  · cases hok : ai.ok && ao.ok with
    | false =>
      obtain ⟨sa', hg, hh, hn, hs⟩ := growIfFull_fails h hfull hok
      exact .inr ⟨sa', hg, rfl, hh, hn, hs⟩
    | true =>
      obtain ⟨hi, ho⟩ := Bool.and_eq_true_iff.1 hok
      obtain ⟨b, hb, hbl, hbt⟩ := Alloc.realloc_ok hi sa.indices (sa.size * 2)
      obtain ⟨c, hcr, hcl, hct⟩ := Alloc.realloc_ok ho sa.objs (sa.size * 2)
      have hbt := hbt sa.size hli (by omega)
      have hct := hct sa.size hlo (by omega)
      have hdouble : nat (sa.size * 2) = .ok (sa.size * 2) := nat_ok_of_lt (by omega)
      left
      refine ⟨{ sa with indices := b, objs := c, size := sa.size * 2 }, some b, ?_,
        ⟨?_, ?_, by simp only; omega, by simp only; omega, k + 1, ?_, ?_⟩, by simp only [hfull, hbt]⟩
      · unfold growIfFull
        rw [if_pos hfull]
        simp only [hb, hcr, hdouble, ok_bind]
      · simpa only [hfull, hbt, hct] using h.rep
      · have : 0 < 2 ^ k := Nat.two_pow_pos k
        simp only [initLen] at hk ⊢
        omega
      · simp only [hk]; rw [Nat.pow_succ, Nat.mul_assoc]
      · right; simp only; omega
  · left
    refine ⟨sa, none, ?_, ⟨h.rep, by omega, hli, hlo, k, hk, by omega⟩, rfl⟩
    unfold growIfFull
    rw [if_neg hfull]

theorem insertAt_spec {sa : SparseArrayT α} {m : Int → Option α} (h : Room sa m) (hroom : sa.nrObjs < 2 ^ 30)
    (arr : Option (List Int)) {p : Nat} {index : Int} (hp : Place (sa.indices.take sa.nrObjs) index p) (obj : α) :
    ∃ sa', insertAt sa arr p index obj = .ok sa' ∧ Holds sa' (Function.update m index (some obj)) := by
  have hlt := h.lt
  have hli := h.indices
  have hlo := h.objs
  have hpn : p ≤ sa.nrObjs := by
    have := hp.le
    simp only [List.length_take] at this
    omega
  obtain ⟨bi, hbi, hbil, hbit⟩ := memmove_store (b := sa.indices) hpn (by omega) index
  obtain ⟨bo, hbo, hbol, hbot⟩ := memmove_store (b := sa.objs) hpn (by omega) obj
  obtain ⟨ci, hci, hbi⟩ := bind_ok_iff.1 hbi
  obtain ⟨co, hco, hbo⟩ := bind_ok_iff.1 hbo
  have hn : nat (sa.nrObjs + 1) = .ok (sa.nrObjs + 1) := nat_ok_of_lt (by omega)
  refine ⟨{ sa with indices := bi, objs := bo, nrObjs := sa.nrObjs + 1 }, ?_, ?_⟩
  · unfold insertAt
    rw [if_pos (show p < sa.size by omega)]
    simp only [hci, hco, hbi, hbo, ok_bind, hn]
  · have hins := h.rep.insert hp obj
    rw [List.take_take, Nat.min_eq_left hpn, List.take_take, Nat.min_eq_left hpn, ← hbit, ← hbot] at hins
    exact ⟨hins, hlt, by simp only; omega, by simp only; omega, h.capacity⟩

/-- **One `sparse_array_set`**, whatever the allocator does: it returns 0 and
the map has the new pair, or it returns an error and the map, `nr_objs` and
`size` are what they were. -/
theorem sparseArraySet_spec {sa : SparseArrayT α} {m : Int → Option α} (h : Holds sa m) {index : Int}
    (hroom : sa.nrObjs < 2 ^ 30 ∨ (m index).isSome) (obj : α) (ai : Alloc Int) (ao : Alloc α) :
    (∃ sa', sparseArraySet sa index obj ai ao = .ok (sa', 0) ∧ Holds sa' (Function.update m index (some obj))) ∨
      ∃ sa', sparseArraySet sa index obj ai ao = .ok (sa', -enomem) ∧ (ai.ok && ao.ok) = false ∧ Holds sa' m ∧
        sa'.nrObjs = sa.nrObjs ∧ sa'.size = sa.size := by
  unfold sparseArraySet
  rcases h.search index with ⟨p, hb, hp, hq⟩ | ⟨p, hb, hp⟩
  · left
    have hlt : p < sa.objs.length := by have := h.le; have := h.objs; omega
    have hrep := h.rep.replace (p := p) (by rw [List.getElem?_take_of_lt hp, hq]) obj
    rw [← List.take_set] at hrep
    refine ⟨{ sa with objs := sa.objs.set p obj }, ?_, hrep, h.le, h.indices, by simpa using h.objs, h.capacity⟩
    simp [hb, store_ok hlt, show ¬ (p : Int) < 0 by omega]
  · have hnew : sa.nrObjs < 2 ^ 30 := hroom.resolve_right fun hs => hp.not_mem ((h.rep.isSome_iff index).1 hs)
    simp only [hb, ok_bind, bitNot_neg_iff.2 (Int.natCast_nonneg p), if_true, bitNot_bitNot, Int.toNat_natCast]
    rcases growIfFull_spec h hnew ai ao with ⟨sa₁, arr, hg, hr, hpre⟩ | ⟨sa₁, hg, hf, hh, hn, hsz⟩
    · left
      have hn : sa₁.nrObjs < 2 ^ 30 := by
        have h1 := congrArg List.length hpre
        have := h.le; have := h.indices; have := hr.lt; have := hr.indices
        simp only [List.length_take] at h1
        omega
      obtain ⟨sa', hi, hh⟩ := insertAt_spec hr hn arr (hpre ▸ hp) obj
      exact ⟨sa', by simp [hg, hi], hh⟩
    · right
      exact ⟨sa₁, by simp [hg], hf, hh, hn, hsz⟩

/-- A new index for a full array that gets no more memory, however many pairs
it has. -/
theorem sparseArraySet_fails {sa : SparseArrayT α} {m : Int → Option α} (h : Holds sa m) {index : Int}
    (hnone : m index = none) (hfull : sa.nrObjs = sa.size) (obj : α) {ai : Alloc Int} {ao : Alloc α}
    (hfail : (ai.ok && ao.ok) = false) :
    ∃ sa', sparseArraySet sa index obj ai ao = .ok (sa', -enomem) ∧ Holds sa' m ∧ sa'.nrObjs = sa.nrObjs ∧
      sa'.size = sa.size := by
  unfold sparseArraySet
  rcases h.search index with ⟨p, hb, hp, hq⟩ | ⟨p, hb, hp⟩
  · have hmem : index ∈ sa.indices.take sa.nrObjs :=
      List.mem_of_getElem? (by rw [List.getElem?_take_of_lt hp, hq])
    have hsome := (h.rep.isSome_iff index).2 hmem
    rw [hnone] at hsome
    cases hsome
  · obtain ⟨sa₁, hg, hh, hn, hsz⟩ := growIfFull_fails h hfull hfail
    refine ⟨sa₁, ?_, hh, hn, hsz⟩
    simp [hb, bitNot_neg_iff.2 (Int.natCast_nonneg p), hg]

/-! ## Runs -/

theorem lastSet_append {cs : List (SetCall α)} {c : SetCall α} :
    lastSet (cs ++ [c]) = Function.update (lastSet cs) c.index (some c.obj) := by
  funext q
  by_cases hq : c.index = q
  · subst hq; simp [lastSet]
  · rw [Function.update_of_ne fun he => hq he.symm]
    simp [lastSet, hq]

theorem lastSet_isSome {cs : List (SetCall α)} {q : Int} : (lastSet cs q).isSome ↔ q ∈ (cs.map (·.index)).toFinset := by
  simp only [lastSet, Option.isSome_map, List.find?_isSome, List.mem_reverse, beq_iff_eq, List.mem_toFinset,
    List.mem_map]

theorem Holds.nrObjs_eq {sa : SparseArrayT α} {cs : List (SetCall α)} (h : Holds sa (lastSet cs)) :
    sa.nrObjs = (cs.map (·.index)).toFinset.card := by
  rw [← h.rep.length_eq_card fun q => lastSet_isSome.symm, List.length_take,
    Nat.min_eq_left (Nat.le_trans h.le h.indices)]

theorem card_index_mono {cs ds : List (SetCall α)} (h : cs ⊆ ds) :
    (cs.map (·.index)).toFinset.card ≤ (ds.map (·.index)).toFinset.card :=
  Finset.card_le_card fun q hq => by
    simp only [List.mem_toFinset] at hq ⊢
    exact List.map_subset _ h hq

/-- A call of a run with at most `2^30` distinct indices finds its index, or
fewer than `2^30` others. -/
theorem Holds.room {sa : SparseArrayT α} {pre cs : List (SetCall α)} {c : SetCall α} (h : Holds sa (lastSet pre))
    (hd : ((pre ++ c :: cs).map (·.index)).toFinset.card ≤ 2 ^ 30) :
    sa.nrObjs < 2 ^ 30 ∨ (lastSet pre c.index).isSome := by
  by_cases hc : c.index ∈ (pre.map (·.index)).toFinset
  · exact .inr (lastSet_isSome.2 hc)
  · left
    have h1 : ((pre ++ [c]).map (·.index)).toFinset.card = sa.nrObjs + 1 := by
      rw [h.nrObjs_eq, List.map_append, List.map_singleton, List.toFinset_append, Finset.union_comm]
      exact Finset.card_insert_of_notMem hc
    have h2 : ((pre ++ [c]).map (·.index)).toFinset.card ≤ 2 ^ 30 :=
      Nat.le_trans (card_index_mono fun x hx => by simp at hx ⊢; tauto) hd
    omega

/-- **A run of sets**, each with its allocations: the calls all return 0 and
the array holds the most recent object of each index. -/
theorem runSets_holds {cs : List (SetCall α)} (hok : ∀ c ∈ cs, (c.ai.ok && c.ao.ok) = true) :
    ∀ (pre : List (SetCall α)) {sa : SparseArrayT α}, Holds sa (lastSet pre) →
      ((pre ++ cs).map (·.index)).toFinset.card ≤ 2 ^ 30 →
      ∃ sa', runSets sa cs = .ok (sa', cs.map fun _ => 0) ∧ Holds sa' (lastSet (pre ++ cs)) := by
  induction cs with
  | nil => intro pre sa h _; exact ⟨sa, rfl, by simpa using h⟩
  | cons c cs ih =>
    intro pre sa h hd
    rcases sparseArraySet_spec h (h.room hd) c.obj c.ai c.ao with ⟨sa₁, h₁, hh⟩ | ⟨sa₁, h₁, hf, -⟩
    · rw [← lastSet_append] at hh
      obtain ⟨sa', hr, hh'⟩ := ih (fun d hm => hok d (by simp [hm])) (pre ++ [c]) hh (by simpa using hd)
      exact ⟨sa', by simp [runSets, h₁, hr], by simpa using hh'⟩
    · rw [hok c (by simp)] at hf
      cases hf

/-- **The sparse array refines a finite map.** After `sparse_array_create`
and any sets whose allocations succeed, with at most `2^30` distinct indices,
at every point of the run: the calls so far returned 0; `sparse_array_get`
returns 0 with the most recent object of the index, or -1 leaving `*obj`
alone; and the representation is as described. -/
theorem sparseArray_refines_map (ao : Alloc α) (ai : Alloc Int) (ho : ao.ok = true) (hi : ai.ok = true)
    (cs : List (SetCall α)) (hok : ∀ c ∈ cs, (c.ai.ok && c.ao.ok) = true)
    (hd : (cs.map (·.index)).toFinset.card ≤ 2 ^ 30) :
    ∃ sa₀, sparseArrayCreate true ao ai = some sa₀ ∧ ∀ pre, pre <+: cs →
      ∃ sa, runSets sa₀ pre = .ok (sa, pre.map fun _ => 0) ∧
        (∀ q obj, sparseArrayGet sa q obj =
          .ok (match lastSet pre q with | some o => (0, o) | none => (-1, obj))) ∧
        (sa.indices.take sa.nrObjs).Pairwise (· < ·) ∧
        (∀ p < sa.nrObjs, ∃ q o, sa.indices[p]? = some q ∧ sa.objs[p]? = some o ∧ lastSet pre q = some o) ∧
        sa.nrObjs = (pre.map (·.index)).toFinset.card ∧ sa.nrObjs ≤ sa.size := by
  obtain ⟨sa₀, h₀, hh₀⟩ := sparseArrayCreate_holds ho hi
  refine ⟨sa₀, h₀, fun pre hpre => ?_⟩
  obtain ⟨sa, hr, hh⟩ := runSets_holds (fun c hc => hok c (hpre.subset hc)) [] hh₀
    (Nat.le_trans (card_index_mono hpre.subset) hd)
  rw [List.nil_append] at hh
  refine ⟨sa, hr, sparseArrayGet_spec hh, hh.rep.sorted, fun p hp => ?_, hh.nrObjs_eq, hh.le⟩
  have hpi : p < sa.indices.length := by have := hh.le; have := hh.indices; omega
  have hpo : p < sa.objs.length := by have := hh.le; have := hh.objs; omega
  refine ⟨sa.indices[p], sa.objs[p], List.getElem?_eq_getElem hpi, List.getElem?_eq_getElem hpo, ?_⟩
  rw [hh.rep.value (p := p) (by rw [List.getElem?_take_of_lt hp, List.getElem?_eq_getElem hpi]),
    List.getElem?_take_of_lt hp, List.getElem?_eq_getElem hpo]

/-- An allocator that always succeeds. -/
def calm {β : Type} [Inhabited β] : Alloc β := ⟨true, fun _ => default⟩

theorem sparseArray_refines_map_sample :
    ∃ sa₀, sparseArrayCreate true calm calm = some sa₀ ∧
      ∃ sa, runSets sa₀ [⟨5, 'a', calm, calm⟩, ⟨-3, 'b', calm, calm⟩, ⟨5, 'c', calm, calm⟩] = .ok (sa, [0, 0, 0]) ∧
        sparseArrayGet sa 5 'z' = .ok (0, 'c') ∧ sparseArrayGet sa 7 'z' = .ok (-1, 'z') ∧ sa.nrObjs = 2 := by
  obtain ⟨sa₀, h₀, hrun⟩ := sparseArray_refines_map calm calm rfl rfl
    [⟨5, 'a', calm, calm⟩, ⟨-3, 'b', calm, calm⟩, ⟨5, 'c', calm, calm⟩] (by simp [calm]) (by decide)
  obtain ⟨sa, hr, hget, -, -, hn, -⟩ := hrun _ List.prefix_rfl
  refine ⟨sa₀, h₀, sa, hr, ?_, ?_, ?_⟩
  · rw [hget]; rfl
  · rw [hget]; rfl
  · rw [hn]; rfl

end

end SugarNSpice.SparseArray
