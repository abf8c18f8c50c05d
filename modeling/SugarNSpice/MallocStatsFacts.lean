/-
What the tables say of a history.

One description of them, `Kept`, is preserved by every valid call: each tag's
counts, in 64-bit arithmetic, the live pointers with their tags, and the tags
in order of first use. That allocations are frees and live pointers is a fact
of histories alone.
-/
import SugarNSpice.MallocStats
import Mathlib.Data.Set.Card
import Mathlib.SetTheory.Cardinal.NatCard
import Mathlib.Data.BitVec

namespace SugarNSpice.MallocStats

variable {T : Type}

/-! ## Histories -/

/-- The live pointers allocated under `t`. -/
def liveUnder (t : T) (h : List (Call T)) : Set Pointer := {p | live h p = some t}

instance finite_word : Finite (BitVec 64) := .of_equiv _ (BitVec.equivFin (m := 64)).symm.toEquiv

theorem ncard_liveUnder_lt (t : T) (h : List (Call T)) : (liveUnder t h).ncard < 2 ^ 64 := by
  have hle := Set.ncard_le_ncard (Set.subset_univ (liveUnder t h))
  rw [Set.ncard_univ] at hle
  have hlt : Nat.card Pointer < Nat.card (BitVec 64) := Finite.card_subtype_lt (x := 0) (by simp)
  have hcard : Nat.card (BitVec 64) = 2 ^ 64 := by
    rw [Nat.card_congr (BitVec.equivFin (m := 64)).toEquiv, Nat.card_eq_fintype_card, Fintype.card_fin]
  omega

theorem liveUnder_doAlloc_self (size : Int) (t : T) (ptr : Pointer) (h : List (Call T)) :
    liveUnder t (.doAlloc size t ptr :: h) = insert ptr (liveUnder t h) := by
  ext p
  by_cases hp : p = ptr <;> simp [liveUnder, live, Function.update_apply, hp]

theorem liveUnder_doAlloc_other {s t : T} (hs : s ≠ t) {ptr : Pointer} {h : List (Call T)} (hfresh : live h ptr = none)
    (size : Int) : liveUnder t (.doAlloc size s ptr :: h) = liveUnder t h := by
  ext p
  by_cases hp : p = ptr <;> simp [liveUnder, live, Function.update_apply, hp, hs, hfresh]

theorem liveUnder_doFree (t : T) (ptr : Pointer) (h : List (Call T)) :
    liveUnder t (.doFree ptr :: h) = liveUnder t h \ {ptr} := by
  ext p
  by_cases hp : p = ptr <;> simp [liveUnder, live, Function.update_apply, hp]

section

variable [DecidableEq T]

theorem allocs_doAlloc (t : T) (size : Int) (s : T) (ptr : Pointer) (h : List (Call T)) :
    allocs t (.doAlloc size s ptr :: h) = allocs t h + if s = t then 1 else 0 := by
  simp [allocs, tags, List.count_append, List.count_singleton]

/-- What has been allocated has been freed or is live. -/
theorem allocs_eq {h : List (Call T)} (hv : Valid h) (t : T) : allocs t h = frees t h + (liveUnder t h).ncard := by
  induction h with
  | nil => simp [allocs, tags, frees, liveUnder, live]
  | cons c h ih =>
    cases c with
    | doAlloc size s ptr =>
      obtain ⟨hfresh, hv⟩ := hv
      rw [allocs_doAlloc, ih hv, frees]
      by_cases hs : s = t
      · subst hs
        have hnot : ptr ∉ liveUnder s h := by simp [liveUnder, hfresh]
        rw [liveUnder_doAlloc_self, Set.ncard_insert_of_notMem hnot, if_pos rfl]
        omega
      · rw [liveUnder_doAlloc_other hs hfresh, if_neg hs]
        omega
    | doFree ptr =>
      obtain ⟨hlive, hv⟩ := hv
      have hback : allocs t (.doFree ptr :: h) = allocs t h := rfl
      rw [hback, ih hv, frees, liveUnder_doFree]
      split
      next ht =>
        have hmem : ptr ∈ liveUnder t h := ht
        have := Set.ncard_sdiff_singleton_add_one hmem
        omega
      next ht =>
        have hmem : ptr ∉ liveUnder t h := ht
        rw [Set.sdiff_singleton_eq_self hmem]
        omega

theorem frees_of_notMem {h : List (Call T)} (hv : Valid h) {t : T} (ht : t ∉ tags h) : frees t h = 0 := by
  have hnone : allocs t h = 0 := List.count_eq_zero.2 ht
  have := allocs_eq hv t
  omega

omit [DecidableEq T] in
theorem mem_tags_of_live {h : List (Call T)} {p : Pointer} {t : T} (hp : live h p = some t) : t ∈ tags h := by
  induction h with
  | nil => cases hp
  | cons c h ih =>
    cases c with
    | doAlloc size s ptr =>
      rw [tags, List.mem_append, List.mem_singleton]
      simp only [live, Function.update_apply] at hp
      split at hp
      next => exact .inr (Option.some.inj hp).symm
      next => exact .inl (ih hp)
    | doFree ptr =>
      simp only [live, Function.update_apply] at hp
      split at hp
      next => cases hp
      next => exact ih hp

/-! ## Tags in order of first use -/

theorem eraseDups_concat (l : List T) (a : T) :
    (l ++ [a]).eraseDups = if a ∈ l then l.eraseDups else l.eraseDups ++ [a] := by
  rw [List.eraseDups_append]
  split
  next ha => simp [List.removeAll, ha]
  next ha => simp [List.removeAll, ha, List.eraseDups_cons]

theorem nodup_eraseDups (l : List T) : l.eraseDups.Nodup := by
  induction l using List.reverseRecOn with
  | nil => exact .nil
  | append_singleton l a ih =>
    rw [eraseDups_concat]
    split
    next => exact ih
    next ha =>
      rw [← List.concat_eq_append]
      exact ih.concat (by simpa using ha)

/-! ## Counts -/

/-- The counts a tracker is to have for a tag, if the tag has been used. -/
def counts (h : List (Call T)) (t : T) : Option (BitVec 64 × BitVec 64) :=
  if t ∈ tags h then some (BitVec.ofNat 64 (allocs t h), BitVec.ofNat 64 (frees t h)) else none

theorem counts_of_mem {h : List (Call T)} {t : T} (ht : t ∈ tags h) :
    counts h t = some (BitVec.ofNat 64 (allocs t h), BitVec.ofNat 64 (frees t h)) := if_pos ht

theorem counts_of_notMem {h : List (Call T)} {t : T} (ht : t ∉ tags h) : counts h t = none := if_neg ht

theorem counts_doAlloc_self {h : List (Call T)} (hv : Valid h) (size : Int) (s : T) (ptr : Pointer) :
    counts (.doAlloc size s ptr :: h) s = some (((counts h s).getD (0, 0)).1 + 1, ((counts h s).getD (0, 0)).2) := by
  rw [counts_of_mem (by simp [tags]), allocs_doAlloc, if_pos rfl, frees, BitVec.ofNat_add]
  by_cases hs : s ∈ tags h
  · rw [counts_of_mem hs]
    rfl
  · have hnone : allocs s h = 0 := List.count_eq_zero.2 hs
    rw [counts_of_notMem hs, hnone, frees_of_notMem hv hs]
    rfl

theorem counts_doAlloc_other {s t : T} (hst : t ≠ s) (h : List (Call T)) (size : Int) (ptr : Pointer) :
    counts (.doAlloc size s ptr :: h) t = counts h t := by
  simp [counts, tags, allocs_doAlloc, frees, hst, Ne.symm hst]

theorem counts_doFree_self {h : List (Call T)} {ptr : Pointer} {t : T} (ht : live h ptr = some t) :
    counts (.doFree ptr :: h) t = some (BitVec.ofNat 64 (allocs t h), BitVec.ofNat 64 (frees t h) + 1) := by
  have hmem : t ∈ tags (.doFree ptr :: h) := (mem_tags_of_live ht : t ∈ tags h)
  rw [counts_of_mem hmem, frees, if_pos ht, BitVec.ofNat_add]
  rfl

theorem counts_doFree_other {h : List (Call T)} {ptr : Pointer} {s t : T} (hs : live h ptr = some s) (hst : t ≠ s) :
    counts (.doFree ptr :: h) t = counts h t := by
  simp [counts, tags, allocs, frees, hs, Ne.symm hst]

/-! ## The tables -/

/-- What the tables hold after a history. -/
structure Kept (h : List (Call T)) (g : Tables T) : Prop where
  strings : g.allocStringTable = (tags h).eraseDups
  track : ∀ p, (g.allocTrackTable p).map AllocData.allocString = live h p
  stats : ∀ t, g.allocStatTable t = (counts h t).map fun c => ⟨c.1, c.2, t⟩

theorem Kept.store {h h' : List (Call T)} {g : Tables T} (hg : Kept h g) {s : T} {as : AllocStat T}
    (hself : (counts h' s).map (fun c => ⟨c.1, c.2, s⟩) = some as) (hother : ∀ t, t ≠ s → counts h' t = counts h t)
    (t : T) : Function.update g.allocStatTable s (some as) t = (counts h' t).map fun c => ⟨c.1, c.2, t⟩ := by
  by_cases ht : t = s
  · subst ht
    rw [Function.update_self, hself]
  · rw [Function.update_of_ne ht, hother t ht, hg.stats t]

theorem Kept.debugAlloc {h : List (Call T)} {g : Tables T} (hg : Kept h g) (hv : Valid h) (size : Int) (s : T)
    (ptr : Pointer) : Kept (.doAlloc size s ptr :: h) (debugAlloc g ptr size s) := by
  have hstat := hg.stats s
  have hself := counts_doAlloc_self hv size s ptr
  have hother : ∀ t, t ≠ s → counts (.doAlloc size s ptr :: h) t = counts h t :=
    fun t ht => counts_doAlloc_other ht h size ptr
  have htrack : ∀ p, (Function.update g.allocTrackTable ptr (some ⟨s, ptr, size⟩) p).map AllocData.allocString =
      live (.doAlloc size s ptr :: h) p := by
    intro p
    simp only [live, Function.update_apply]
    split
    next => rfl
    next => exact hg.track p
  by_cases hs : s ∈ tags h
  · rw [counts_of_mem hs] at hstat hself
    simp only [MallocStats.debugAlloc, hstat, Option.map_some]
    refine ⟨?_, htrack, hg.store (by rw [hself]; rfl) hother⟩
    rw [tags, eraseDups_concat, if_pos hs]
    exact hg.strings
  · rw [counts_of_notMem hs] at hstat hself
    simp only [MallocStats.debugAlloc, hstat, Option.map_none]
    refine ⟨?_, htrack, hg.store (by rw [hself]; rfl) hother⟩
    rw [tags, eraseDups_concat, if_neg hs, hg.strings]

theorem Kept.debugFree {h : List (Call T)} {g : Tables T} (hg : Kept h g) {ptr : Pointer} (hlive : live h ptr ≠ none) :
    Kept (.doFree ptr :: h) (debugFree g ptr) := by
  obtain ⟨s, hs⟩ := Option.ne_none_iff_exists'.1 hlive
  obtain ⟨ad, had, rfl⟩ := Option.map_eq_some_iff.1 ((hg.track ptr).trans hs)
  have hstat := hg.stats ad.allocString
  rw [counts_of_mem (mem_tags_of_live hs)] at hstat
  simp only [MallocStats.debugFree, had, hstat, Option.map_some]
  refine ⟨hg.strings, fun p => ?_, hg.store ?_ fun t ht => counts_doFree_other hs ht⟩
  · simp only [live, Function.update_apply]
    split
    next => rfl
    next => exact hg.track p
  · rw [counts_doFree_self hs]
    rfl

/-- **The tables after any valid history.** -/
theorem run_kept {h : List (Call T)} (hv : Valid h) : Kept h (run h) := by
  induction h with
  | nil => exact ⟨rfl, fun _ => rfl, fun _ => rfl⟩
  | cons c h ih =>
    cases c with
    | doAlloc size s ptr => exact (ih hv.2).debugAlloc hv.2 size s ptr
    | doFree ptr => exact (ih hv.2).debugFree hv.1

theorem Kept.printStats_eq {h : List (Call T)} {g : Tables T} (hg : Kept h g) :
    printStats g = (tags h).eraseDups.map fun t =>
      ⟨t, percentD (BitVec.ofNat 64 (allocs t h)), percentD (BitVec.ofNat 64 (frees t h)),
        percentD (BitVec.ofNat 64 (allocs t h) - BitVec.ofNat 64 (frees t h))⟩ := by
  rw [printStats, hg.strings, ← List.filterMap_eq_map]
  refine List.filterMap_congr fun t ht => ?_
  rw [hg.stats t, counts_of_mem (List.mem_eraseDups.1 ht)]
  rfl

/-- `nr_allocs` of a tag; 0 where the tag has no entry. -/
def Tables.nrAllocs (g : Tables T) (t : T) : BitVec 64 := ((g.allocStatTable t).map AllocStat.nrAllocs).getD 0

def Tables.nrFrees (g : Tables T) (t : T) : BitVec 64 := ((g.allocStatTable t).map AllocStat.nrFrees).getD 0

theorem Kept.nrAllocs_eq {h : List (Call T)} {g : Tables T} (hg : Kept h g) (t : T) :
    g.nrAllocs t = BitVec.ofNat 64 (allocs t h) := by
  rw [Tables.nrAllocs, hg.stats t]
  by_cases ht : t ∈ tags h
  · rw [counts_of_mem ht]
    rfl
  · have hnone : allocs t h = 0 := List.count_eq_zero.2 ht
    rw [counts_of_notMem ht, hnone]
    rfl

theorem Kept.nrFrees_eq {h : List (Call T)} {g : Tables T} (hg : Kept h g) (hv : Valid h) (t : T) :
    g.nrFrees t = BitVec.ofNat 64 (frees t h) := by
  rw [Tables.nrFrees, hg.stats t]
  by_cases ht : t ∈ tags h
  · rw [counts_of_mem ht]
    rfl
  · rw [counts_of_notMem ht, frees_of_notMem hv ht]
    rfl

theorem ofNat_allocs_sub_frees {h : List (Call T)} (hv : Valid h) (t : T) :
    (BitVec.ofNat 64 (allocs t h) - BitVec.ofNat 64 (frees t h)).toNat = (liveUnder t h).ncard := by
  have hlt := ncard_liveUnder_lt t h
  rw [allocs_eq hv t, BitVec.ofNat_add, BitVec.add_comm, BitVec.add_sub_cancel, BitVec.toNat_ofNat,
    Nat.mod_eq_of_lt hlt]

/-- **The statistics balance.** After every valid history, whatever the tags,
the order of frees and the reuse of addresses:
- `nr_allocs` is the number of `do_alloc` calls with the tag, as a 64-bit
  number;
- the difference of the two counts is the number of live pointers allocated
  under it;
- the tracking table holds the live pointers, each with the tag it was last
  allocated under;
- `print_stats` prints each tag once, in order of first use. -/
theorem stats_balance {h : List (Call T)} (hv : Valid h) :
    (∀ t, ((run h).nrAllocs t).toNat = allocs t h % 2 ^ 64 ∧
      ((run h).nrAllocs t - (run h).nrFrees t).toNat = (liveUnder t h).ncard) ∧
      (∀ p, ((run h).allocTrackTable p).map AllocData.allocString = live h p) ∧
      (printStats (run h)).map Row.allocString = (tags h).eraseDups ∧ (tags h).eraseDups.Nodup := by
  have hkept := run_kept hv
  refine ⟨fun t => ⟨?_, ?_⟩, hkept.track, ?_, nodup_eraseDups _⟩
  · rw [hkept.nrAllocs_eq, BitVec.toNat_ofNat]
  · rw [hkept.nrAllocs_eq, hkept.nrFrees_eq hv, ofNat_allocs_sub_frees hv]
  · rw [hkept.printStats_eq, List.map_map]
    exact List.map_id _

end

/-- An address. -/
def block : Pointer := ⟨1, by decide⟩

/-- `n` times an allocation and its free, at one address. -/
def pairs (s : T) : Nat → List (Call T)
  | 0 => []
  | n + 1 => .doFree block :: .doAlloc 20 s block :: pairs s n

theorem pairs_valid (s : T) (n : Nat) : live (pairs s n) block = none ∧ Valid (pairs s n) := by
  induction n with
  | zero => exact ⟨rfl, trivial⟩
  | succ n ih => exact ⟨by simp [pairs, live], by simp [live], ih⟩

theorem allocs_pairs [DecidableEq T] (s : T) (n : Nat) : allocs s (pairs s n) = n := by
  induction n with
  | zero => rfl
  | succ n ih =>
    have hback : allocs s (pairs s (n + 1)) = allocs s (.doAlloc 20 s block :: pairs s n) := rfl
    rw [hback, allocs_doAlloc, ih, if_pos rfl]

/-- An address used again under another tag, and live there. -/
def reused : List (Call String) := [.doAlloc 20 "b" block, .doFree block, .doAlloc 20 "a" block]

theorem stats_balance_reused :
    Valid reused ∧ ((run reused).allocTrackTable block).map AllocData.allocString = some "b" ∧
      (printStats (run reused)).map Row.allocString = ["a", "b"] := by
  have hv : Valid reused := by simp [reused, Valid, live]
  exact ⟨hv, (stats_balance hv).2.1 block, (stats_balance hv).2.2.1⟩

theorem nr_allocs_wraps :
    ∃ h : List (Call String), Valid h ∧ allocs "a" h = 2 ^ 64 ∧ ((run h).nrAllocs "a").toNat = 0 := by
  have hv := (pairs_valid "a" (2 ^ 64)).2
  refine ⟨pairs "a" (2 ^ 64), hv, allocs_pairs _ _, ?_⟩
  rw [(run_kept hv).nrAllocs_eq, allocs_pairs]
  decide

end SugarNSpice.MallocStats
