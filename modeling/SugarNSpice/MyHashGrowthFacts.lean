/-
Slot growth in `test_myhash.c`: the sizes at which `hash_table_usage` is
computed without overflow, and what a table of such a size holds after any
inserts that do not expand it.

Below `2^24` slots and inserts no product or sum of the usage leaves the range
of an `int`, and a full slot can be doubled. So all that is asked of a run is
that the usage is at most 90 when a slot is full; then every slot holds the
pairs of its index in the order they came (`inserts_keep_order`).
-/
import SugarNSpice.MyHashFacts
import Mathlib.Data.List.Induction

namespace SugarNSpice.MyHash

open CLang

variable {δ : Type}

/-! ## Capacities -/

theorem capacity_eq (m len : Nat) : ∃ k, capacity m len = m * 2 ^ k := by
  induction len with
  | zero => exact ⟨0, (Nat.mul_one m).symm⟩
  | succ len ih =>
    obtain ⟨k, hk⟩ := ih
    rw [capacity]
    split
    · exact ⟨k + 1, by rw [hk, Nat.pow_succ, Nat.mul_left_comm, Nat.mul_comm 2]⟩
    · exact ⟨k, hk⟩

/-! ## The usage -/

theorem slotUsage_ok {slt : Slot δ} {cap len : Nat} (hnext : slt.nextChainHook = len) (hnr : slt.nrChainHooks = cap)
    (hpos : 1 ≤ cap) (hle : len ≤ cap) (hlen : len < 2 ^ 24) :
    ∃ share : Nat, slotUsage slt = .ok share ∧ share ≤ 100 := by
  have hproduct : int ((len : Int) * 100) = .ok ((len * 100 : Nat) : Int) :=
    int_ok ⟨by unfold intMax; omega, by unfold intMax; omega⟩
  have hdiv : div ((len * 100 : Nat) : Int) cap = .ok ((len * 100 / cap : Nat) : Int) := by
    have hne : (cap : Int) ≠ 0 := by omega
    rw [div, if_neg hne]
    rfl
  have hshare : len * 100 / cap ≤ 100 := by
    refine Nat.div_le_of_le_mul ?_
    rw [Nat.mul_comm cap]
    omega
  refine ⟨len * 100 / cap, ?_, hshare⟩
  rw [slotUsage, hnext, hnr, hproduct, ok_bind, hdiv, ok_bind]
  generalize len * 100 / cap = share at hshare
  exact int_ok ⟨by unfold intMax; omega, by unfold intMax; omega⟩

theorem length_chain_le (n : Nat) (pairs : List (ChainHook δ)) (i : Nat) : (chain n pairs i).length ≤ pairs.length :=
  List.length_filter_le _ _

/-- **The usage can be computed** below `2^24` slots and pairs. -/
theorem Chains.usage_ok {n m : Nat} {pairs : List (ChainHook δ)} {ht : HashTable δ} (h : Chains n m pairs ht)
    (hm : 1 ≤ m) (hn : 1 ≤ n) (hn24 : n ≤ 2 ^ 24) (hlen : pairs.length < 2 ^ 24) :
    ∃ usage, hashTableUsage ht = .ok usage := by
  have hstep : ∀ (i : Nat) (usage : Int), 0 ≤ i → i < 0 + n → (0 ≤ usage ∧ usage ≤ 100 * i) →
      ∃ usage' : Int, (do let share ← slotUsage (← load ht.slots i); int (usage + share)) = .ok usage' ∧
        0 ≤ usage' ∧ usage' ≤ 100 * (i + 1 : Nat) := by
    intro i usage _ hi husage
    have hi' : i < ht.slots.length := by rw [h.length]; omega
    have hs := h.slot i hi'
    have hshort := length_chain_le n pairs i
    obtain ⟨share, hshare, hle⟩ := slotUsage_ok hs.next hs.nr (capacity_pos hm _) (le_capacity hm _) (by omega)
    refine ⟨usage + share, ?_, by omega, by omega⟩
    rw [load_ok hi', ok_bind, hshare, ok_bind]
    exact int_ok ⟨by unfold intMax; omega, by unfold intMax; omega⟩
  have hstart : (0 : Int) ≤ 0 ∧ (0 : Int) ≤ 100 * (0 : Nat) := ⟨Int.le_refl 0, by omega⟩
  obtain ⟨usage, hloop, -⟩ := forUp_total hstep hstart
  have hne : ht.nrSlots ≠ 0 := by rw [h.nrSlots]; omega
  refine ⟨usage.tdiv ht.nrSlots, ?_⟩
  unfold hashTableUsage
  rw [h.nrSlots, Int.toNat_natCast, hloop, ok_bind, ← h.nrSlots, div, if_neg hne]

/-! ## Runs -/

/-- Whenever an insert of the run finds its slot full, the usage is at most 90. -/
def UsageLow (mem : Nat → Malloc δ) (n m : Nat) (pairs : List (ChainHook δ)) : Prop :=
  ∀ pre p, pre ++ [p] <+: pairs → ∀ w, run mem 2 n m pre = .ok w → SlotFull w.ht p.key →
    ∀ usage, hashTableUsage w.ht = .ok usage → usage ≤ 90

/-- What the table holds: for each slot the pairs of its index, in order, and
a capacity that is `m` doubled some number of times. -/
structure Ordered (n m : Nat) (pairs : List (ChainHook δ)) (ht : HashTable δ) : Prop where
  nrSlots : ht.nrSlots = n
  length : ht.slots.length = n
  slot : ∀ (i : Nat) (h : i < ht.slots.length),
    ht.slots[i].pairs = pairs.filter (fun p => hashKey p.key n = i) ∧
      ht.slots[i].nextChainHook = (pairs.filter fun p => hashKey p.key n = i).length ∧
      ht.slots[i].nextChainHook ≤ ht.slots[i].nrChainHooks ∧ ∃ k, ht.slots[i].nrChainHooks = (m * 2 ^ k : Nat)

theorem Chains.ordered {n m : Nat} {pairs : List (ChainHook δ)} {ht : HashTable δ} (hsz : Sized n m)
    (h : Chains n m pairs ht) : Ordered n m pairs ht := by
  refine ⟨h.nrSlots, h.length, fun i hi => ?_⟩
  have hs := h.slot i hi
  have hchain : pairs.filter (fun p => hashKey p.key n = i) = chain n pairs i := by
    refine List.filter_congr fun p _ => ?_
    rw [hsz.hashKey_eq, decide_eq_decide]
    exact Int.natCast_inj
  obtain ⟨k, hk⟩ := capacity_eq m (chain n pairs i).length
  have hle := le_capacity hsz.pos (chain n pairs i).length
  rw [hchain]
  refine ⟨hs.pairs_eq, hs.next, ?_, k, by rw [hs.nr, hk]⟩
  rw [hs.next, hs.nr]
  omega

theorem run_concat (mem : Nat → Malloc δ) (d n m : Nat) (pre : List (ChainHook δ)) (p : ChainHook δ) :
    run mem d n m (pre ++ [p]) =
      (run mem d n m pre >>= fun w => hashTableInsert mem d w p.key p.data >>= fun r => .ok r.1) := by
  simp only [run, insertAll_append, bind_assoc, insertAll]

/-- Below the bounds, an insert that finds its slot full only when the usage is
low fits. -/
theorem Chains.fits {n m : Nat} {pairs : List (ChainHook δ)} {w : World δ} {key : BitVec 32} (hsz : Sized n m)
    (h : Chains n m pairs w.ht) (hn24 : n ≤ 2 ^ 24) (hlen : pairs.length < 2 ^ 24)
    (hlow : SlotFull w.ht key → ∀ usage, hashTableUsage w.ht = .ok usage → usage ≤ 90) : Fits n m pairs key := by
  intro hfull
  have hslot : SlotFull w.ht key := (h.slotFull_iff hsz key).2 hfull
  have hshort := length_chain_le n pairs (slotOf n key)
  obtain ⟨usage, husage⟩ := h.usage_ok hsz.pos hsz.slots hn24 hlen
  refine ⟨⟨usage, h.usage_eq ▸ husage, hlow hslot usage husage⟩, ?_⟩
  rw [← hfull]
  unfold intMax
  omega

theorem UsageLow.before {mem : Nat → Malloc δ} {n m : Nat} {pre pairs : List (ChainHook δ)}
    (h : UsageLow mem n m pairs) (hpre : pre <+: pairs) : UsageLow mem n m pre :=
  fun pre' p hp => h pre' p (hp.trans hpre)

/-- **A run with a low usage** keeps the chains. -/
theorem run_chains {n m : Nat} {mem : Nat → Malloc δ} (hsz : Sized n m) (hn24 : n ≤ 2 ^ 24)
    (hmem : ∀ k, (mem k).ok = true) {pairs : List (ChainHook δ)} (hlen : pairs.length < 2 ^ 24)
    (hlow : UsageLow mem n m pairs) : ∃ w, run mem 2 n m pairs = .ok w ∧ Chains n m pairs w.ht := by
  induction pairs using List.reverseRecOn with
  | nil =>
    obtain ⟨w, hcreate, hempty⟩ := hashTableCreate_chains (n := n) hsz.isInt fun k _ => hmem k
    exact ⟨w, by rw [run, hcreate, ok_bind, insertAll], hempty⟩
  | append_singleton pre p ih =>
    rw [List.length_append, List.length_singleton] at hlen
    obtain ⟨w, hrun, h⟩ := ih (by omega) (hlow.before (List.prefix_append pre [p]))
    have hfits : Fits n m pre p.key := h.fits hsz hn24 (by omega) (hlow pre p List.prefix_rfl w hrun)
    obtain ⟨w', h', -, hinsert, -⟩ := hashTableInsert_chains hsz h hfits fun _ => hmem _
    exact ⟨w', by rw [run_concat, hrun, ok_bind, hinsert 0, ok_bind], h'⟩

/-- **Slot growth keeps each chain in insertion order.** For every table made
with a power of two of at most `2^24` slots and any capacity, and fewer than
`2^24` inserts with memory for all of it, in which the usage is at most 90
whenever an insert finds its slot full: at every point of the run each slot
holds the pairs of its index in the order of their inserts, in a capacity that
is the first one doubled; and each insert calls itself at most once. -/
theorem inserts_keep_order {n m : Nat} (hpow : ∃ k, n = 2 ^ k) (hn24 : n ≤ 2 ^ 24) (hm : 1 ≤ m)
    (hint : (m : Int) ≤ intMax) {mem : Nat → Malloc δ} (hmem : ∀ k, (mem k).ok = true) {pairs : List (ChainHook δ)}
    (hlen : pairs.length < 2 ^ 24) (hlow : UsageLow mem n m pairs) :
    (∀ pre, pre <+: pairs → ∃ w, run mem 2 n m pre = .ok w ∧ Ordered n m pre w.ht) ∧
      ∀ pre p, pre ++ [p] <+: pairs → ∃ w w', run mem 2 n m pre = .ok w ∧
        hashTableInsert mem 2 w p.key p.data = .ok (w', 0) ∧ RecursesOnce mem w p w' := by
  have hsz : Sized n m := by
    obtain ⟨k, rfl⟩ := hpow
    exact ⟨Nat.pow_pos (by omega), by unfold intMax; omega, hm, hint⟩
  refine ⟨fun pre hpre => ?_, fun pre p hpre => ?_⟩
  · have hshort := hpre.length_le
    obtain ⟨w, hrun, h⟩ := run_chains hsz hn24 hmem (by omega) (hlow.before hpre)
    exact ⟨w, hrun, h.ordered hsz⟩
  · have hpre' := (List.prefix_append pre [p]).trans hpre
    have hshort := hpre'.length_le
    obtain ⟨w, hrun, h⟩ := run_chains hsz hn24 hmem (by omega) (hlow.before hpre')
    have hfits : Fits n m pre p.key := h.fits hsz hn24 (by omega) (hlow pre p hpre w hrun)
    obtain ⟨w', -, honce, hinsert, -⟩ := hashTableInsert_chains hsz h hfits fun _ => hmem _
    exact ⟨w, w', hrun, hinsert 0, honce⟩

/-- Two slots for one pair each, and two pairs of the second slot: it grows at
a usage of 50. -/
theorem inserts_keep_order_sample :
    ∃ w, run (zeroMem (δ := BitVec 64) ⟨0, 0⟩) 2 2 1 [⟨3, 1⟩, ⟨-1, 2⟩] = .ok w ∧
      Ordered 2 1 [⟨3, 1⟩, ⟨-1, 2⟩] w.ht := by
  have hlow : UsageLow (zeroMem (δ := BitVec 64) ⟨0, 0⟩) 2 1 [⟨3, 1⟩, ⟨-1, 2⟩] := by
    have hempty : (run (zeroMem (δ := BitVec 64) ⟨0, 0⟩) 2 2 1 [] >>= fun w => hashTableUsage w.ht) = .ok 0 := by
      decide
    have hone : (run (zeroMem (δ := BitVec 64) ⟨0, 0⟩) 2 2 1 [⟨3, 1⟩] >>= fun w => hashTableUsage w.ht) = .ok 50 := by
      decide
    intro pre p hpre w hrun _ usage husage
    match pre, hpre with
    | [], _ =>
      rw [hrun, ok_bind, husage] at hempty
      cases hempty
      decide
    | [q], hpre =>
      obtain ⟨rfl, -⟩ := List.cons_prefix_cons.1 hpre
      rw [hrun, ok_bind, husage] at hone
      cases hone
      decide
    | _ :: _ :: _, hpre => exact absurd hpre.length_le (by simp)
  exact (inserts_keep_order ⟨1, rfl⟩ (by decide) (by decide) (by decide) (fun _ => rfl) (by decide) hlow).1 _
    List.prefix_rfl

end SugarNSpice.MyHash
