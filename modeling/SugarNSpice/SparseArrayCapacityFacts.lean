/-
How far the capacity of `test_sparse_array.c` goes.

`size` is an `int` that starts at 64 and is doubled whenever the array is full.
With at most `2^30` different indices it stays positive and large enough, and
the place of a new pair is always below it, so the branch that stores without
shifting is never taken. The next index finds the array full at `2^30` cells,
and twice that is no `int`: as 32 bits it is negative, below every place.
-/
import SugarNSpice.SparseArrayRunFacts

namespace SugarNSpice.SparseArray

open CLang SortedMap

variable {α : Type}

/-- A call that leaves the capacity in order: it returns, the size is positive
and enough, and a new pair's place is below the size. -/
structure CapacityKept (sa : SparseArrayT α) (c : SetCall α) : Prop where
  size : ∃ sa' r, sparseArraySet sa c.index c.obj c.ai c.ao = .ok (sa', r) ∧ 0 < sa'.size ∧ sa'.nrObjs ≤ sa'.size
  shifts : ∀ ret sa₁ arr, binarySearch sa.indices c.index sa.nrObjs = .ok ret → ret < 0 →
    growIfFull sa c.ai c.ao = .ok (.ok (sa₁, arr)) → (bitNot ret).toNat < sa₁.size

/-- Every call of the run does. -/
def InCapacity (sa₀ : SparseArrayT α) (cs : List (SetCall α)) : Prop :=
  ∀ pre c, pre ++ [c] <+: cs → ∃ sa rs, runSets sa₀ pre = .ok (sa, rs) ∧ CapacityKept sa c

/-! ## Up to `2^30` indices -/

theorem Holds.size_pos {sa : SparseArrayT α} {m : Int → Option α} (h : Holds sa m) : 0 < sa.size := by
  obtain ⟨k, hk, -⟩ := h.capacity
  rw [hk]
  exact Nat.mul_pos (by decide) (Nat.two_pow_pos k)

/-- **One call** with room for it. -/
theorem Holds.capacityKept {sa : SparseArrayT α} {m : Int → Option α} (h : Holds sa m) {c : SetCall α}
    (hroom : sa.nrObjs < 2 ^ 30 ∨ (m c.index).isSome) : CapacityKept sa c := by
  refine ⟨?_, fun ret sa₁ arr hsearch hneg hgrow => ?_⟩
  · rcases sparseArraySet_spec h hroom c.obj c.ai c.ao with ⟨sa', hset, hh⟩ | ⟨sa', hset, -, hh, -⟩
    · exact ⟨sa', 0, hset, hh.size_pos, hh.le⟩
    · exact ⟨sa', -enomem, hset, hh.size_pos, hh.le⟩
  · rcases h.search c.index with ⟨p, hb, -⟩ | ⟨p, hb, hp⟩
    · rw [hsearch, Except.ok.injEq] at hb
      omega
    · rw [hsearch, Except.ok.injEq] at hb
      have hnew : sa.nrObjs < 2 ^ 30 := hroom.resolve_right fun hs => hp.not_mem ((h.rep.isSome_iff _).1 hs)
      rw [hb, bitNot_bitNot, Int.toNat_natCast]
      rcases growIfFull_spec h hnew c.ai c.ao with ⟨sa', arr', hg, hr, hsame⟩ | ⟨sa', hg, -⟩
      · rw [hgrow] at hg
        cases hg
        have hle := hp.le
        have hlt := hr.lt
        rw [← hsame, List.length_take] at hle
        omega
      · rw [hgrow] at hg
        cases hg

/-! ## One more -/

theorem growIfFull_overflow {sa : SparseArrayT α} (hfull : sa.nrObjs = sa.size) (hn : sa.nrObjs = 2 ^ 30)
    {ai : Alloc Int} {ao : Alloc α} (hok : (ai.ok && ao.ok) = true) : growIfFull sa ai ao = .error .overflow := by
  obtain ⟨hi, ho⟩ := Bool.and_eq_true_iff.1 hok
  obtain ⟨b, hb, -⟩ := Alloc.realloc_ok hi sa.indices (sa.size * 2)
  obtain ⟨c, hc, -⟩ := Alloc.realloc_ok ho sa.objs (sa.size * 2)
  have hbig : nat (sa.size * 2) = .error .overflow := nat_overflow (by unfold intMax; omega)
  unfold growIfFull
  rw [if_pos hfull]
  simp only [hb, hc, hbig, error_bind]

theorem sparseArraySet_overflow {sa : SparseArrayT α} {m : Int → Option α} (h : Holds sa m) {index : Int}
    (hnone : m index = none) (hn : sa.nrObjs = 2 ^ 30) (obj : α) {ai : Alloc Int} {ao : Alloc α}
    (hok : (ai.ok && ao.ok) = true) : sparseArraySet sa index obj ai ao = .error .overflow := by
  unfold sparseArraySet
  rcases h.search index with ⟨p, -, hp, hq⟩ | ⟨p, hb, -⟩
  · have hmem : index ∈ sa.indices.take sa.nrObjs :=
      List.mem_of_getElem? (by rw [List.getElem?_take_of_lt hp, hq])
    have hsome := (h.rep.isSome_iff index).2 hmem
    rw [hnone] at hsome
    cases hsome
  · rw [hb, ok_bind, if_pos (bitNot_neg_iff.2 (Int.natCast_nonneg p)), growIfFull_overflow (h.full hn) hn hok,
      error_bind]

/-- A run with more than `n` indices comes to a call that names one more than
the `n` before it. -/
theorem exists_next_index {n : Nat} {cs : List (SetCall α)} (h : n < distinct cs) :
    ∃ pre c, pre ++ [c] <+: cs ∧ distinct pre = n ∧ lastSet pre c.index = none := by
  induction cs using List.reverseRecOn with
  | nil => exact absurd h (Nat.not_lt_zero n)
  | append_singleton cs c ih =>
    by_cases hlt : n < distinct cs
    · obtain ⟨pre, d, hpre, hn, hnone⟩ := ih hlt
      exact ⟨pre, d, hpre.trans (List.prefix_append cs [c]), hn, hnone⟩
    · have hmore := distinct_concat_le cs c
      refine ⟨cs, c, List.prefix_rfl, by omega, ?_⟩
      by_contra hne
      have hmem := lastSet_isSome.1 (Option.isSome_iff_ne_none.2 hne)
      rw [distinct, List.map_append, List.map_singleton, List.toFinset_append,
        Finset.union_eq_left.2 (by simpa using hmem)] at h
      exact hlt h

theorem Holds.inCapacity_iff {sa₀ : SparseArrayT α} (hempty : Holds sa₀ fun _ => none) {cs : List (SetCall α)}
    (hok : ∀ c ∈ cs, (c.ai.ok && c.ao.ok) = true) : InCapacity sa₀ cs ↔ distinct cs ≤ 2 ^ 30 := by
  have hrun : ∀ pre, pre <+: cs → distinct pre ≤ 2 ^ 30 →
      ∃ sa, runSets sa₀ pre = .ok (sa, pre.map fun _ => 0) ∧ Holds sa (lastSet pre) := by
    intro pre hpre hle
    obtain ⟨sa, hr, hh⟩ := runSets_holds (fun c hc => hok c (hpre.subset hc)) [] hempty hle
    exact ⟨sa, hr, by rwa [List.nil_append] at hh⟩
  refine ⟨fun hin => ?_, fun hle pre c hpre => ?_⟩
  · by_contra hmore
    obtain ⟨pre, c, hpre, hn, hnone⟩ := exists_next_index (Nat.lt_of_not_le hmore)
    have hbefore := (List.prefix_append pre [c]).trans hpre
    obtain ⟨sa, hr, hh⟩ := hrun pre hbefore (Nat.le_of_eq hn)
    obtain ⟨sa', rs, hr', hkept⟩ := hin pre c hpre
    rw [hr] at hr'
    cases hr'
    obtain ⟨sa'', r, hset, -⟩ := hkept.size
    rw [sparseArraySet_overflow hh hnone (hh.nrObjs_eq.trans hn) c.obj (hok c (hpre.subset (by simp)))] at hset
    cases hset
  · have hbefore := (List.prefix_append pre [c]).trans hpre
    obtain ⟨sa, hr, hh⟩ := hrun pre hbefore (Nat.le_trans (card_index_mono hbefore.subset) hle)
    have hnext : ((pre ++ [c]).map (·.index)).toFinset.card ≤ 2 ^ 30 :=
      Nat.le_trans (card_index_mono hpre.subset) hle
    exact ⟨sa, _, hr, hh.capacityKept (hh.room hnext)⟩

/-- **When the capacity is in order.** For every run of `sparse_array_set`
whose allocations succeed, of any length and over any indices: after every
call the size is positive and at least the number of pairs, and no call stores
without shifting, exactly when the calls name at most `2^30` different
indices. -/
theorem sparseArray_inCapacity_iff (ao : Alloc α) (ai : Alloc Int) (ho : ao.ok = true) (hi : ai.ok = true)
    (cs : List (SetCall α)) (hok : ∀ c ∈ cs, (c.ai.ok && c.ao.ok) = true) :
    ∃ sa₀, sparseArrayCreate true ao ai = some sa₀ ∧ (InCapacity sa₀ cs ↔ distinct cs ≤ 2 ^ 30) := by
  obtain ⟨sa₀, h₀, hempty⟩ := sparseArrayCreate_holds ho hi
  exact ⟨sa₀, h₀, hempty.inCapacity_iff hok⟩

theorem sparseArray_inCapacity_iff_sample :
    ∃ sa₀, sparseArrayCreate true calm calm = some sa₀ ∧
      InCapacity sa₀ [⟨5, 'a', calm, calm⟩, ⟨-3, 'b', calm, calm⟩, ⟨5, 'c', calm, calm⟩] := by
  obtain ⟨sa₀, h₀, hiff⟩ := sparseArray_inCapacity_iff calm calm rfl rfl
    [⟨5, 'a', calm, calm⟩, ⟨-3, 'b', calm, calm⟩, ⟨5, 'c', calm, calm⟩] (by simp [calm])
  exact ⟨sa₀, h₀, hiff.2 (by decide)⟩

theorem distinct_range (n : Nat) : distinct ((List.range n).map (sampleCall true)) = n := by
  have hindex : ((List.range n).map (sampleCall true)).map (·.index) = (List.range n).map Int.ofNat := by
    rw [List.map_map]
    rfl
  have hnodup : ((List.range n).map Int.ofNat).Nodup := List.nodup_range.map fun _ _ => Int.ofNat.inj
  rw [distinct, hindex, List.toFinset_card_of_nodup hnodup, List.length_map, List.length_range]

/-- The indices 0 to `2^30`: before the last of them the array is full, and the
doubled size is no `int`; as 32 bits it is `INT_MIN`, and no place is below
it. -/
theorem capacity_overflows :
    ∃ sa₀ sa rs, sparseArrayCreate true calm calm = some sa₀ ∧
      runSets sa₀ ((List.range (2 ^ 30)).map (sampleCall true)) = .ok (sa, rs) ∧ sa.nrObjs = 2 ^ 30 ∧
      sa.size = 2 ^ 30 ∧ (BitVec.ofNat 32 (sa.size * 2)).toInt = -2147483648 ∧
      growIfFull sa calm ⟨true, fun _ => 0⟩ = .error .overflow ∧
      ¬ InCapacity sa₀ ((List.range (2 ^ 30 + 1)).map (sampleCall true)) := by
  generalize hn : 2 ^ 30 = n
  have hcalm : (calm : Alloc Nat).ok = true ∧ (calm : Alloc Int).ok = true := ⟨rfl, rfl⟩
  have hok : ∀ k, ∀ c ∈ (List.range k).map (sampleCall true), (c.ai.ok && c.ao.ok) = true := by
    intro k c hc
    obtain ⟨i, -, rfl⟩ := List.mem_map.1 hc
    rfl
  obtain ⟨sa₀, h₀, hempty⟩ := sparseArrayCreate_holds hcalm.1 hcalm.2
  have hle : distinct ((List.range n).map (sampleCall true)) ≤ 2 ^ 30 := by rw [distinct_range, hn]
  obtain ⟨sa, hrun, hh⟩ := runSets_holds (hok n) [] hempty (by rw [List.nil_append]; exact hle)
  rw [List.nil_append] at hh
  have hnr : sa.nrObjs = n := hh.nrObjs_eq.trans (distinct_range n)
  have hfull := hh.full (hnr.trans hn.symm)
  have hsize : sa.size = n := hfull.symm.trans hnr
  refine ⟨sa₀, sa, _, h₀, hrun, hnr, hsize, ?_, growIfFull_overflow hfull (hnr.trans hn.symm) rfl, fun hin => ?_⟩
  · rw [BitVec.toInt_ofNat', Int.bmod_def]
    omega
  · have hmore := (hempty.inCapacity_iff (hok (n + 1))).1 hin
    rw [distinct_range, hn] at hmore
    omega

end SugarNSpice.SparseArray
