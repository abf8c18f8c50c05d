/-
What `hash_table_usage` computes.

For a table that was never expanded, the usage is the average of the slots'
percentages, each rounded down: at most 100, and 100 only where every slot is
full. All of it is `int` arithmetic: 100 times the number of pairs of a slot
has to be an `int`, and so has the sum of the percentages.
-/
import SugarNSpice.MyHashFailureFacts
import Mathlib.Algebra.BigOperators.Group.List.Basic
import Mathlib.Algebra.Ring.Int.Defs

namespace SugarNSpice.MyHash

open CLang

variable {δ : Type}

/-- The usage is computed and is a percentage, 100 exactly for a full table. -/
def UsageIsPercentage (ht : HashTable δ) : Prop :=
  ∃ usage, hashTableUsage ht = .ok usage ∧ 0 ≤ usage ∧ usage ≤ 100 ∧
    (usage = 100 ↔ ∀ slt ∈ ht.slots, slt.nextChainHook = slt.nrChainHooks)

/-- How full a slot is, in percent. -/
def Slot.fill (slt : Slot δ) : Int := slt.nextChainHook * 100 / slt.nrChainHooks

/-- A slot that holds no more than it has room for. -/
structure Slot.Within (slt : Slot δ) : Prop where
  nonneg : 0 ≤ slt.nextChainHook
  le : slt.nextChainHook ≤ slt.nrChainHooks
  pos : 0 < slt.nrChainHooks

theorem Slot.Within.fill_nonneg {slt : Slot δ} (h : slt.Within) : 0 ≤ slt.fill :=
  Int.ediv_nonneg (Int.mul_nonneg h.nonneg (by decide)) (Int.le_of_lt h.pos)

theorem Slot.Within.fill_le {slt : Slot δ} (h : slt.Within) : slt.fill ≤ 100 := by
  have hle := h.le
  refine Int.ediv_le_of_le_mul h.pos ?_
  omega

theorem Slot.Within.fill_eq_iff {slt : Slot δ} (h : slt.Within) :
    slt.fill = 100 ↔ slt.nextChainHook = slt.nrChainHooks := by
  have hle := h.le
  have hfill : 100 ≤ slt.fill ↔ 100 * slt.nrChainHooks ≤ slt.nextChainHook * 100 := Int.le_ediv_iff_mul_le h.pos
  have := h.fill_le
  omega

theorem slotUsage_iff {slt : Slot δ} (h : slt.Within) {share : Int} :
    slotUsage slt = .ok share ↔ slt.nextChainHook ≤ 21474836 ∧ share = slt.fill := by
  have hnonneg := h.nonneg
  have hpos := h.pos
  have hfill := h.fill_le
  have hfill0 := h.fill_nonneg
  unfold slotUsage
  by_cases hbig : slt.nextChainHook ≤ 21474836
  · have hmul : int (slt.nextChainHook * 100) = .ok (slt.nextChainHook * 100) :=
      int_ok ⟨by unfold intMax; omega, by unfold intMax; omega⟩
    have hdiv : div (slt.nextChainHook * 100) slt.nrChainHooks = .ok slt.fill := by
      rw [div, if_neg (by omega), Int.tdiv_eq_ediv_of_nonneg (by omega), Slot.fill]
    rw [hmul, ok_bind, hdiv, ok_bind, int_ok ⟨by unfold intMax; omega, by unfold intMax; omega⟩, Except.ok.injEq]
    exact ⟨fun hs => ⟨hbig, hs.symm⟩, fun hs => hs.2.symm⟩
  · have hmul : int (slt.nextChainHook * 100) = .error .overflow :=
      if_neg fun hint => hbig (by have := hint.2; unfold intMax at this; omega)
    rw [hmul, error_bind]
    exact ⟨fun hs => (by cases hs), fun hs => absurd hs.1 hbig⟩

/-! ## The sum over the slots -/

/-- What the loop has added up before slot `i`. -/
def fillBefore (slots : List (Slot δ)) (i : Nat) : Int := ((slots.take i).map Slot.fill).sum

theorem fillBefore_succ {slots : List (Slot δ)} {i : Nat} (h : i < slots.length) :
    fillBefore slots (i + 1) = fillBefore slots i + slots[i].fill := by
  rw [fillBefore, List.take_succ_eq_append_getElem h, List.map_append, List.sum_append, List.map_singleton,
    List.sum_singleton]
  rfl

section Sum

variable {slots : List (Slot δ)}

theorem fillBefore_mono (h : ∀ slt ∈ slots, slt.Within) {i j : Nat} (hij : i ≤ j) (hj : j ≤ slots.length) :
    fillBefore slots i ≤ fillBefore slots j := by
  induction j, hij using Nat.le_induction with
  | base => exact Int.le_refl _
  | succ j hle ih =>
    rw [fillBefore_succ (by omega)]
    have := (h slots[j] (List.getElem_mem _)).fill_nonneg
    have := ih (by omega)
    omega

/-- At most 100 for each slot, and that only where all are full. -/
theorem fillBefore_le (h : ∀ slt ∈ slots, slt.Within) {i : Nat} (hi : i ≤ slots.length) :
    fillBefore slots i ≤ 100 * i ∧
      (fillBefore slots i = 100 * i ↔ ∀ slt ∈ slots.take i, slt.nextChainHook = slt.nrChainHooks) := by
  induction i with
  | zero => simp [fillBefore]
  | succ i ih =>
    obtain ⟨hle, hiff⟩ := ih (by omega)
    have hslot := h slots[i] (List.getElem_mem _)
    have hfill := hslot.fill_le
    have hfull := hslot.fill_eq_iff
    rw [fillBefore_succ (by omega), List.take_succ_eq_append_getElem (by omega)]
    refine ⟨by push_cast; omega, ?_⟩
    simp only [List.mem_append, List.mem_singleton, or_imp, forall_and, forall_eq, ← hiff, ← hfull]
    push_cast
    omega

/-- The loop's body at `i`. -/
def addShare (slots : List (Slot δ)) (i : Nat) (usage : Int) : Outcome Int := do
  let share ← slotUsage (← load slots i)
  int (usage + share)

theorem addShare_iff (h : ∀ slt ∈ slots, slt.Within) {i : Nat} (hi : i < slots.length) {usage usage' : Int}
    (hnonneg : 0 ≤ usage) : addShare slots i usage = .ok usage' ↔
      slots[i].nextChainHook ≤ 21474836 ∧ usage + slots[i].fill ≤ intMax ∧ usage' = usage + slots[i].fill := by
  have hslot := h slots[i] (List.getElem_mem hi)
  have hfill := hslot.fill_nonneg
  unfold addShare
  rw [load_ok hi, ok_bind, bind_ok_iff]
  simp only [slotUsage_iff hslot, and_assoc, exists_and_left, exists_eq_left]
  refine and_congr_right fun _ => ?_
  unfold int
  split
  · next hint => simp [hint.2, eq_comm]
  · next hint =>
    refine ⟨fun hs => (by cases hs), fun hs => absurd ⟨by unfold intMax; omega, hs.1⟩ hint⟩

theorem fillBefore_nonneg (h : ∀ slt ∈ slots, slt.Within) {i : Nat} (hi : i ≤ slots.length) :
    0 ≤ fillBefore slots i := fillBefore_mono h (Nat.zero_le i) hi

/-- The loop has come to slot `i` without an overflow. -/
structure SummedTo (slots : List (Slot δ)) (i : Nat) (usage : Int) : Prop where
  sum : usage = fillBefore slots i
  isInt : usage ≤ intMax
  fits : ∀ slt ∈ slots.take i, slt.nextChainHook ≤ 21474836

/-- **The loop of `hash_table_usage`** ends exactly when no product and no sum
overflows, and with the sum of the percentages. -/
theorem usageLoop_iff (h : ∀ slt ∈ slots, slt.Within) {usage : Int} :
    forUp (addShare slots) slots.length 0 0 = .ok usage ↔
      ((∀ slt ∈ slots, slt.nextChainHook ≤ 21474836) ∧ fillBefore slots slots.length ≤ intMax) ∧
        usage = fillBefore slots slots.length := by
  refine ⟨fun hrun => ?_, ?_⟩
  · have hkeeps : ∀ i u u', 0 ≤ i → i < 0 + slots.length → SummedTo slots i u → addShare slots i u = .ok u' →
        SummedTo slots (i + 1) u' := by
      rintro i u u' - hi ⟨rfl, hle, hall⟩ hbody
      rw [Nat.zero_add] at hi
      obtain ⟨hnext, hsum, rfl⟩ := (addShare_iff h hi (fillBefore_nonneg h (Nat.le_of_lt hi))).1 hbody
      refine ⟨(fillBefore_succ hi).symm, hsum, fun slt hslt => ?_⟩
      rw [List.take_succ_eq_append_getElem hi, List.mem_append, List.mem_singleton] at hslt
      rcases hslt with hslt | rfl
      · exact hall slt hslt
      · exact hnext
    have hstart : SummedTo slots 0 0 := ⟨rfl, by decide, by simp⟩
    have hend := forUp_keeps hkeeps hstart hrun
    rw [Nat.zero_add] at hend
    obtain ⟨rfl, hle, hall⟩ := hend
    rw [List.take_length] at hall
    exact ⟨⟨hall, hle⟩, rfl⟩
  · intro h
    obtain ⟨⟨hall, hle⟩, rfl⟩ := h
    have hstep : ∀ i u, 0 ≤ i → i < 0 + slots.length → u = fillBefore slots i →
        ∃ u', addShare slots i u = .ok u' ∧ u' = fillBefore slots (i + 1) := by
      rintro i u - hi rfl
      rw [Nat.zero_add] at hi
      have hsum := fillBefore_mono h (Nat.succ_le_of_lt hi) (Nat.le_refl _)
      rw [Nat.succ_eq_add_one, fillBefore_succ hi] at hsum
      refine ⟨_, (addShare_iff h hi (fillBefore_nonneg h (Nat.le_of_lt hi))).2 ⟨?_, ?_, rfl⟩, (fillBefore_succ hi).symm⟩
      · exact hall _ (List.getElem_mem hi)
      · omega
    obtain ⟨u, hrun, rfl⟩ := forUp_total hstep rfl
    rwa [Nat.zero_add] at hrun

end Sum

/-! ## The usage -/

theorem Chains.within {n m : Nat} {pairs : List (ChainHook δ)} {ht : HashTable δ} (hsz : Sized n m)
    (h : Chains n m pairs ht) : ∀ slt ∈ ht.slots, slt.Within := by
  intro slt hslt
  obtain ⟨i, hi, rfl⟩ := List.getElem_of_mem hslt
  have hs := h.slot i hi
  have hle := le_capacity hsz.pos (chain n pairs i).length
  have hpos := capacity_pos hsz.pos (chain n pairs i).length
  refine ⟨?_, ?_, ?_⟩
  · rw [hs.next]
    exact Int.natCast_nonneg _
  · rw [hs.next, hs.nr]
    exact Int.ofNat_le.2 hle
  · rw [hs.nr]
    exact Int.ofNat_lt.2 hpos

def fillSum (ht : HashTable δ) : Int := (ht.slots.map Slot.fill).sum

theorem mean_percentage {total n : Int} (hn : 0 < n) (h0 : 0 ≤ total) (hle : total ≤ 100 * n) :
    0 ≤ total / n ∧ total / n ≤ 100 ∧ (total / n = 100 ↔ total = 100 * n) := by
  have hquot : 100 ≤ total / n ↔ 100 * n ≤ total := Int.le_ediv_iff_mul_le hn
  have hquot' : total / n ≤ 100 := Int.ediv_le_of_le_mul hn hle
  refine ⟨Int.ediv_nonneg h0 (Int.le_of_lt hn), hquot', ?_⟩
  omega

theorem Chains.hashTableUsage_eq {n m : Nat} {pairs : List (ChainHook δ)} {ht : HashTable δ} (h : Chains n m pairs ht) :
    hashTableUsage ht =
      (forUp (addShare ht.slots) ht.slots.length 0 0 >>= fun usage => div usage ht.slots.length) := by
  have hn : ht.nrSlots = ht.slots.length := by rw [h.nrSlots, h.length]
  have hlen : (ht.nrSlots : Int).toNat = ht.slots.length := by rw [hn, Int.toNat_natCast]
  rw [hashTableUsage, hlen, hn]
  rfl

theorem usageIsPercentage_iff {n m : Nat} {pairs : List (ChainHook δ)} {ht : HashTable δ} (hsz : Sized n m)
    (h : Chains n m pairs ht) :
    UsageIsPercentage ht ↔ (∀ slt ∈ ht.slots, slt.nextChainHook ≤ 21474836) ∧ fillSum ht ≤ intMax := by
  have hwithin := h.within hsz
  have hsum : fillBefore ht.slots ht.slots.length = fillSum ht := by rw [fillBefore, List.take_length, fillSum]
  have hloop := @usageLoop_iff δ ht.slots hwithin
  rw [hsum] at hloop
  rw [UsageIsPercentage, h.hashTableUsage_eq]
  constructor
  · intro h
    obtain ⟨usage, hok, -⟩ := h
    obtain ⟨total, hrun, -⟩ := bind_ok_iff.1 hok
    exact (hloop.1 hrun).1
  · intro hcond
    have hpos : (0 : Int) < ht.slots.length := by
      have := hsz.slots
      rw [h.length]
      omega
    obtain ⟨hle, hfull⟩ := fillBefore_le hwithin (Nat.le_refl ht.slots.length)
    have hnonneg := fillBefore_nonneg hwithin (Nat.le_refl ht.slots.length)
    rw [hsum] at hle hfull hnonneg
    rw [List.take_length] at hfull
    obtain ⟨hmean, hmean', hmeanEq⟩ := mean_percentage hpos hnonneg hle
    refine ⟨fillSum ht / ht.slots.length, ?_, hmean, hmean', hmeanEq.trans hfull⟩
    rw [hloop.2 ⟨hcond, rfl⟩, ok_bind, div, if_neg (by omega), Int.tdiv_eq_ediv_of_nonneg hnonneg]

/-- With at most 21474836 slots the percentages always add up to an `int`. -/
theorem Chains.fillSum_isInt {n m : Nat} {pairs : List (ChainHook δ)} {ht : HashTable δ} (hsz : Sized n m)
    (h : Chains n m pairs ht) (hn : n ≤ 21474836) : fillSum ht ≤ intMax := by
  have hle := (fillBefore_le (h.within hsz) (Nat.le_refl ht.slots.length)).1
  rw [fillBefore, List.take_length, h.length] at hle
  unfold fillSum intMax
  omega

/-- **When the usage is a percentage.** For every table made with `n` slots of
`m` hooks and inserts that do not expand it, whatever their allocations came
to: the usage is computed without overflow or division by zero, lies in
`[0, 100]` and is 100 exactly when every slot is full, if and only if no slot
holds more than 21474836 pairs and the slots' percentages, rounded down, add up
to an `int`; with at most 21474836 slots they always do. -/
theorem hashTableUsage_percentage_iff {n m : Nat} {mem : Nat → Malloc δ} {w : World δ} (hsz : Sized n m)
    (h : Reached mem n m w) :
    (UsageIsPercentage w.ht ↔ (∀ slt ∈ w.ht.slots, slt.nextChainHook ≤ 21474836) ∧ fillSum w.ht ≤ intMax) ∧
      (n ≤ 21474836 → fillSum w.ht ≤ intMax) := by
  obtain ⟨pairs, hchains⟩ := h.chains hsz
  exact ⟨usageIsPercentage_iff hsz hchains, hchains.fillSum_isInt hsz⟩

theorem hashTableUsage_percentage_iff_sample : UsageIsPercentage halfFull.ht := by
  have hsz : Sized 2 1 := ⟨by decide, by decide, by decide, by decide⟩
  obtain ⟨hiff, hint⟩ := hashTableUsage_percentage_iff hsz halfFull_reached
  exact hiff.2 ⟨by decide, hint (by decide)⟩

/-! ## A slot with too many pairs -/

theorem capacity_of_le {m k : Nat} (h : k ≤ m) : capacity m k = m := by
  induction k with
  | zero => rfl
  | succ k ih =>
    have hcap := ih (by omega)
    rw [capacity, hcap, if_neg (by omega)]

theorem reached_replicate {m : Nat} (hsz : Sized 1 m) {mem : Nat → Malloc δ} (hmem : ∀ k, (mem k).ok = true)
    (p : ChainHook δ) {k : Nat} (hk : k ≤ m) :
    ∃ w, Reached mem 1 m w ∧ Chains 1 m (List.replicate k p) w.ht := by
  induction k with
  | zero =>
    obtain ⟨w, hcreate, hchains⟩ := hashTableCreate_chains (n := 1) hsz.isInt fun k _ => hmem k
    exact ⟨w, .create hcreate, hchains⟩
  | succ k ih =>
    obtain ⟨w, hreached, hchains⟩ := ih (by omega)
    have hslot : chain 1 (List.replicate k p) (slotOf 1 p.key) = List.replicate k p := by simp [chain]
    have hroom : ¬ SlotFull w.ht p.key := by
      rw [hchains.slotFull_iff hsz, hslot, List.length_replicate, capacity_of_le (by omega)]
      omega
    have hfit : Fits 1 m (List.replicate k p) p.key :=
      (hchains.canGrow_iff hsz p.key).2 fun hfull => absurd hfull hroom
    obtain ⟨w', hchains', -, hins, -⟩ := hashTableInsert_chains hsz hchains hfit fun hfull => absurd hfull hroom
    rw [← List.replicate_succ'] at hchains'
    exact ⟨w', .insert hreached (fun hfull => absurd hfull hroom) (hins 0), hchains'⟩

/-- One slot of 21474837 hooks, all used: 100 times that is no `int`. -/
theorem hashTableUsage_overflows :
    ∃ w, Reached (zeroMem (δ := BitVec 64) ⟨0, 0⟩) 1 21474837 w ∧
      (∀ slt ∈ w.ht.slots, slt.nextChainHook = 21474837 ∧ slt.nrChainHooks = 21474837) ∧
      hashTableUsage w.ht = .error .overflow ∧ ¬ UsageIsPercentage w.ht := by
  generalize hm : 21474837 = m
  have hsz : Sized 1 m := ⟨by decide, by decide, by omega, by unfold intMax; omega⟩
  have hmem : ∀ k, (zeroMem (⟨0, 0⟩ : ChainHook (BitVec 64)) k).ok = true := fun _ => rfl
  obtain ⟨w, hreached, hchains⟩ := reached_replicate hsz hmem ⟨3, 1⟩ (Nat.le_refl m)
  have hlen := hchains.length
  have hi : 0 < w.ht.slots.length := by omega
  have hs := hchains.slot 0 hi
  have hchain : chain 1 (List.replicate m (⟨3, 1⟩ : ChainHook (BitVec 64))) 0 = List.replicate m ⟨3, 1⟩ := by
    simp only [chain, List.filter_replicate, show slotOf 1 3 = 0 from rfl, decide_true, if_true]
  rw [hchain, List.length_replicate, capacity_of_le (Nat.le_refl m)] at hs
  have hnext : w.ht.slots[0].nextChainHook = m := by rw [hs.next, List.length_replicate]
  have hover : hashTableUsage w.ht = .error .overflow := by
    have hmul : int (w.ht.slots[0].nextChainHook * 100) = .error .overflow :=
      if_neg fun hint => by have := hint.2; unfold intMax at this; omega
    rw [hashTableUsage, hchains.nrSlots]
    simp only [Nat.cast_one, Int.toNat_one, forUp, load_ok hi, ok_bind, slotUsage, hmul, error_bind]
  refine ⟨w, hreached, fun slt hslt => ?_, hover, ?_⟩
  · obtain ⟨i, hi', rfl⟩ := List.getElem_of_mem hslt
    obtain rfl : i = 0 := by omega
    exact ⟨hnext.trans (by omega), hs.nr.trans (by omega)⟩
  · intro h
    obtain ⟨usage, hok, -⟩ := h
    rw [hover] at hok
    cases hok

end SugarNSpice.MyHash
