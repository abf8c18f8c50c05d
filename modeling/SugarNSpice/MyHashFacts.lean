/-
Which sequences of inserts a table keeps.

As long as only slots grow, each slot holds, in order, the pairs inserted
under its index, and its capacity is a function of how many they are
(`capacity`); so a run's sizes are known from its keys alone (`shape`). The
first insert that calls `hash_table_expand` works on slots no one has
initialised: whether anything is kept then depends on what the memory held,
and with zero bytes in it the next `hash_table_usage` divides by zero.
`run_kept_iff` is the exact condition.
-/
import SugarNSpice.MyHash
import Mathlib.Data.List.Perm.Basic
import Mathlib.Data.Multiset.Basic

namespace SugarNSpice.MyHash

open CLang List

variable {δ : Type}

/-! ## Keys and capacities -/

/-- Sizes that are `int`s: a slot at least, and room in each. -/
structure Sized (n m : Nat) : Prop where
  slots : 1 ≤ n
  slotsInt : (n : Int) ≤ intMax
  pos : 1 ≤ m
  isInt : (m : Int) ≤ intMax

/-- Sizes to make a table with: a power of two of slots, with room in each,
both `int`s. -/
structure Sizes (n m : Nat) : Prop where
  pow : ∃ k < 31, n = 2 ^ k
  pos : 1 ≤ m
  isInt : (m : Int) ≤ intMax

theorem Sizes.sized {n m : Nat} (h : Sizes n m) : Sized n m := by
  obtain ⟨k, hk, rfl⟩ := h.pow
  have hpos : 0 < 2 ^ k := Nat.pow_pos (by omega)
  have hle : 2 ^ k ≤ 2 ^ 30 := Nat.pow_le_pow_right (by omega) (by omega)
  exact ⟨hpos, by unfold intMax; omega, h.pos, h.isInt⟩

/-- The slot of a key, as a number. -/
def slotOf (n : Nat) (key : BitVec 32) : Nat := (hashKey key n).toNat

/-- The mask keeps a key, a negative one too, below the number of slots. -/
theorem Sized.hashKey_mask {n m : Nat} (h : Sized n m) (key : BitVec 32) :
    hashKey key n = (key.toNat &&& (n - 1) : Nat) := by
  have h1 := h.slots
  have h2 := h.slotsInt
  unfold intMax at h2
  have hmask : (BitVec.ofInt 32 ((n : Int) - 1)).toNat = n - 1 := by
    rw [show (n : Int) - 1 = ((n - 1 : Nat) : Int) by omega, BitVec.ofInt_natCast, BitVec.toNat_ofNat]
    exact Nat.mod_eq_of_lt (by omega)
  have hle : key.toNat &&& (n - 1) ≤ n - 1 := Nat.and_le_right
  unfold hashKey
  rw [BitVec.toInt_eq_toNat_of_lt (by rw [BitVec.toNat_and, hmask]; omega), BitVec.toNat_and, hmask]

theorem Sized.slotOf_lt {n m : Nat} (h : Sized n m) (key : BitVec 32) : slotOf n key < n := by
  have hle : key.toNat &&& (n - 1) ≤ n - 1 := Nat.and_le_right
  have := h.slots
  rw [slotOf, h.hashKey_mask, Int.toNat_natCast]
  omega

theorem Sized.hashKey_eq {n m : Nat} (h : Sized n m) (key : BitVec 32) : hashKey key n = slotOf n key := by
  rw [slotOf, h.hashKey_mask, Int.toNat_natCast]

/-- The capacity of a slot that was made with `m` and has taken `len` pairs:
doubled whenever a pair came and it was full. -/
def capacity (m : Nat) : Nat → Nat
  | 0 => m
  | len + 1 => if len = capacity m len then 2 * capacity m len else capacity m len

theorem capacity_pos {m : Nat} (h : 1 ≤ m) (len : Nat) : 1 ≤ capacity m len := by
  induction len with
  | zero => exact h
  | succ len ih => unfold capacity; split <;> omega

theorem le_capacity {m : Nat} (h : 1 ≤ m) (len : Nat) : len ≤ capacity m len := by
  induction len with
  | zero => omega
  | succ len ih =>
    have := capacity_pos h len
    unfold capacity
    split <;> omega

/-! ## One slot -/

/-- A slot with room for `cap` pairs that holds those of `chain`. -/
structure Slot.Holds (cap : Nat) (slt : Slot δ) (chain : List (ChainHook δ)) : Prop where
  next : slt.nextChainHook = chain.length
  nr : slt.nrChainHooks = cap
  isInt : (cap : Int) ≤ intMax
  hooks : ∃ hooks, slt.chainHooks = some hooks ∧ hooks.length = cap ∧ hooks.take chain.length = chain

theorem Slot.Holds.pairs_eq {cap : Nat} {slt : Slot δ} {chain : List (ChainHook δ)} (h : slt.Holds cap chain) :
    slt.pairs = chain := by
  obtain ⟨hooks, hs, -, ht⟩ := h.hooks
  rw [Slot.pairs, hs, h.next, Int.toNat_natCast, Option.getD_some, ht]

theorem slotInit_holds {m : Nat} (hint : (m : Int) ≤ intMax) {a : Malloc δ} (ha : a.ok = true) :
    ∃ slt, slotInit a m = .ok slt ∧ slt.Holds m [] := by
  have hm : a.hooks m = some ((List.range m).map a.hook) := Alloc.malloc_ok ha m
  rw [slotInit, hm]
  exact ⟨_, rfl, rfl, rfl, hint, _, rfl, by simp, rfl⟩

theorem Slot.Holds.putHook {cap : Nat} {slt : Slot δ} {chain : List (ChainHook δ)} (h : slt.Holds cap chain)
    (hroom : chain.length < cap) (p : ChainHook δ) :
    ∃ slt', slt'.Holds cap (chain ++ [p]) ∧ ∀ w i, MyHash.putHook w i slt p.key p.data = .ok (w.setSlot i slt') := by
  obtain ⟨hooks, hsome, hlen, htake⟩ := h.hooks
  have hlt : chain.length < hooks.length := by omega
  refine ⟨⟨cap, chain.length + 1, some (hooks.set chain.length p)⟩, ?_, fun w i => ?_⟩
  · refine ⟨by simp, rfl, h.isInt, _, rfl, by simpa using hlen, ?_⟩
    rw [List.length_append, List.length_singleton, List.take_succ_eq_append_getElem (by simpa),
      List.take_set_of_le (Nat.le_refl _), htake, List.getElem_set_self]
  · have hint := h.isInt
    unfold MyHash.putHook
    rw [h.next, h.nr, int_ok ⟨by unfold intMax; omega, by omega⟩, ok_bind, hsome]
    simp only [deref, ok_bind, index_natCast, store_ok hlt]

theorem slotChainHooksExpand_holds {mem : Nat → Malloc δ} {w : World δ} {i cap : Nat} {slt : Slot δ}
    {chain : List (ChainHook δ)} (hmem : (mem w.calls).ok = true) (hload : load w.ht.slots i = .ok slt)
    (h : slt.Holds cap chain) (hle : chain.length ≤ cap) (hint : 2 * (cap : Int) ≤ intMax) :
    ∃ slt', slt'.Holds (2 * cap) chain ∧
      slotChainHooksExpand mem w i = .ok ({ w.setSlot i slt' with calls := w.calls + 1 }, none) := by
  obtain ⟨hooks, hsome, hlen, htake⟩ := h.hooks
  have hnew : (mem w.calls).hooks (cap * 2) = some ((List.range (cap * 2)).map (mem w.calls).hook) :=
    Alloc.malloc_ok hmem _
  refine ⟨⟨2 * cap, chain.length, some (hooks ++ ((List.range (cap * 2)).map (mem w.calls).hook).drop cap)⟩, ?_, ?_⟩
  · refine ⟨rfl, by simp, by omega, _, rfl, ?_, ?_⟩
    · simp only [List.length_append, List.length_drop, List.length_map, List.length_range]
      omega
    · rw [List.take_append_of_le_length (by omega), htake]
  · unfold slotChainHooksExpand
    have hpos : (0 : Int) ≤ cap := Int.natCast_nonneg cap
    have hdouble : int ((cap : Int) * 2) = .ok (2 * cap) := by
      rw [int_ok ⟨by unfold intMax; omega, by omega⟩, Int.mul_comm]
    simp only [hload, ok_bind, h.nr, h.next, Int.toNat_natCast, if_pos hpos, hnew, hsome, deref,
      if_pos (Nat.le_of_eq hlen.symm), List.take_of_length_le (Nat.le_of_eq hlen), hdouble, World.setSlot]

/-! ## The table -/

/-- The pairs that belong to slot `i`, in order of insertion. -/
def chain (n : Nat) (pairs : List (ChainHook δ)) (i : Nat) : List (ChainHook δ) :=
  pairs.filter fun p => slotOf n p.key = i

/-- Every slot holds its chain. -/
structure Chains (n m : Nat) (pairs : List (ChainHook δ)) (ht : HashTable δ) : Prop where
  nrSlots : ht.nrSlots = n
  length : ht.slots.length = n
  slot : ∀ (i : Nat) (h : i < ht.slots.length),
    ht.slots[i].Holds (capacity m (chain n pairs i).length) (chain n pairs i)

theorem hashTableCreate_chains {n m : Nat} (hint : (m : Int) ≤ intMax) {mem : Nat → Malloc δ}
    (hmem : ∀ k < 2 + n, (mem k).ok = true) : ∃ w, hashTableCreate mem n m = .ok w ∧ Chains n m [] w.ht := by
  have hslots : (mem 1).slots n = some ((List.range n).map (mem 1).slot) := Alloc.malloc_ok (hmem 1 (by omega)) n
  have hstep : ∀ i (slots : List (Slot δ)), 0 ≤ i → i < 0 + n →
      (slots.length = n ∧ ∀ (j : Nat) (h : j < slots.length), j < i → slots[j].Holds m []) →
      ∃ slots', (do store slots i (← slotInit (mem (2 + i)) m)) = .ok slots' ∧ slots'.length = n ∧
        ∀ (j : Nat) (h : j < slots'.length), j < i + 1 → slots'[j].Holds m [] := by
    rintro i slots - hi ⟨hlen, hdone⟩
    obtain ⟨slt, hinit, hslt⟩ := slotInit_holds hint (hmem (2 + i) (by omega))
    rw [hinit, ok_bind, store_ok (by omega)]
    refine ⟨_, rfl, by rw [List.length_set, hlen], fun j hj hji => ?_⟩
    rw [List.getElem_set]
    split
    · exact hslt
    · exact hdone j (by simpa using hj) (by omega)
  obtain ⟨slots, hrun, hlen, hall⟩ := forUp_total hstep (s := (List.range n).map (mem 1).slot)
    ⟨by simp, fun j hj hj0 => absurd hj0 (Nat.not_lt_zero j)⟩
  unfold hashTableCreate
  rw [hmem 0 (by omega), if_pos rfl, hslots]
  simp only [deref, ok_bind, hrun]
  exact ⟨_, rfl, rfl, hlen, fun i hi => hall i hi (by simp only at hi; omega)⟩

/-- The sizes of a table into which `pairs` went, with no hooks. -/
def shape (n m : Nat) (pairs : List (ChainHook δ)) : HashTable δ :=
  ⟨n, (List.range n).map fun i => ⟨capacity m (chain n pairs i).length, (chain n pairs i).length, none⟩⟩

theorem Chains.usage_eq {n m : Nat} {pairs : List (ChainHook δ)} {ht : HashTable δ} (h : Chains n m pairs ht) :
    hashTableUsage ht = hashTableUsage (shape n m pairs) := by
  have hbody : ∀ i, (load ht.slots i >>= slotUsage) = (load (shape n m pairs).slots i >>= slotUsage) := by
    intro i
    by_cases hi : i < n
    · have hi' : i < ht.slots.length := by rw [h.length]; exact hi
      have hs := h.slot i hi'
      rw [load_ok hi', load_ok (by simpa [shape] using hi), ok_bind, ok_bind]
      simp only [slotUsage, hs.next, hs.nr, shape, List.getElem_map, List.getElem_range]
    · have hl : ∀ {l : List (Slot δ)}, l.length = n → load l i = .error .bounds := by
        intro l hl
        simp [load, List.getElem?_eq_none (show l.length ≤ i by omega)]
      rw [hl h.length, hl (by simp [shape])]
  unfold hashTableUsage
  simp only [← bind_assoc, hbody, h.nrSlots, shape]

theorem Chains.setSlot {n m : Nat} {pairs pairs' : List (ChainHook δ)} {w : World δ} (h : Chains n m pairs w.ht)
    {i : Nat} {slt : Slot δ} (hi : slt.Holds (capacity m (chain n pairs' i).length) (chain n pairs' i))
    (hother : ∀ j ≠ i, chain n pairs' j = chain n pairs j) : Chains n m pairs' (w.setSlot i slt).ht := by
  refine ⟨h.nrSlots, by rw [World.setSlot, List.length_set, h.length], fun j hj => ?_⟩
  simp only [World.setSlot, List.length_set] at hj
  simp only [World.setSlot, List.getElem_set]
  split
  · next he => exact he ▸ hi
  · next hne => exact hother j (Ne.symm hne) ▸ h.slot j hj

theorem chain_append_same {n : Nat} (pairs : List (ChainHook δ)) (p : ChainHook δ) :
    chain n (pairs ++ [p]) (slotOf n p.key) = chain n pairs (slotOf n p.key) ++ [p] := by
  simp [chain]

theorem chain_append_other {n : Nat} (pairs : List (ChainHook δ)) {p : ChainHook δ} {j : Nat}
    (hj : j ≠ slotOf n p.key) : chain n (pairs ++ [p]) j = chain n pairs j := by
  simp [chain, Ne.symm hj]

/-! ## One insert -/

/-- The slot a key goes to is full. -/
def SlotFull (ht : HashTable δ) (key : BitVec 32) : Prop :=
  ∃ slt, load ht.slots (hashKey key ht.nrSlots).toNat = .ok slt ∧ slt.nextChainHook = slt.nrChainHooks

theorem Chains.slotOf_lt {n m : Nat} {pairs : List (ChainHook δ)} {ht : HashTable δ} (hsz : Sized n m)
    (h : Chains n m pairs ht) (key : BitVec 32) : slotOf n key < ht.slots.length := by
  rw [h.length]
  exact hsz.slotOf_lt key

theorem Chains.load_slot {n m : Nat} {pairs : List (ChainHook δ)} {ht : HashTable δ} (h : Chains n m pairs ht)
    {key : BitVec 32} (hi : slotOf n key < ht.slots.length) :
    load ht.slots (hashKey key ht.nrSlots).toNat = .ok ht.slots[slotOf n key] := by
  rw [h.nrSlots]
  exact load_ok hi

theorem Chains.slotFull_iff {n m : Nat} {pairs : List (ChainHook δ)} {ht : HashTable δ} (hsz : Sized n m)
    (h : Chains n m pairs ht) (key : BitVec 32) :
    SlotFull ht key ↔ (chain n pairs (slotOf n key)).length = capacity m (chain n pairs (slotOf n key)).length := by
  have hi := h.slotOf_lt hsz key
  have hs := h.slot _ hi
  unfold SlotFull
  rw [h.load_slot hi]
  simp only [Except.ok.injEq, exists_eq_left', hs.next, hs.nr, Int.natCast_inj]

/-- What an insert relies on before it: if the slot is full, the usage can be
computed and is at most 90, and the doubled capacity is an `int`. -/
def Fits (n m : Nat) (pairs : List (ChainHook δ)) (key : BitVec 32) : Prop :=
  let len := (chain n pairs (slotOf n key)).length
  len = capacity m len →
    (∃ usage, hashTableUsage (shape n m pairs) = .ok usage ∧ usage ≤ 90) ∧ 2 * (capacity m len : Int) ≤ intMax

theorem hashTableInsert_room (mem : Nat → Malloc δ) {w : World δ} {i cap : Nat} {slt : Slot δ} {p : ChainHook δ}
    {chain : List (ChainHook δ)} (hkey : hashKey p.key w.ht.nrSlots = i) (hload : load w.ht.slots i = .ok slt)
    (h : slt.Holds cap chain) (hroom : chain.length < cap) :
    ∃ slt', slt'.Holds cap (chain ++ [p]) ∧
      ∀ d, hashTableInsert mem (d + 1) w p.key p.data = .ok (w.setSlot i slt', 0) := by
  obtain ⟨slt', hholds, hput⟩ := h.putHook hroom p
  refine ⟨slt', hholds, fun d => ?_⟩
  have hne : ¬ slt.nextChainHook = slt.nrChainHooks := by rw [h.next, h.nr]; omega
  rw [hashTableInsert, hkey, index_natCast, ok_bind, hload, ok_bind, if_neg hne, hput, ok_bind]

/-- The insert of `p` calls itself at most once: it puts the pair at once, or
grows its slot and has the pair put at once then. -/
def RecursesOnce (mem : Nat → Malloc δ) (w : World δ) (p : ChainHook δ) (w' : World δ) : Prop :=
  hashTableInsert mem 1 w p.key p.data = .ok (w', 0) ∨
    ∃ w₁, slotChainHooksExpand mem w (hashKey p.key w.ht.nrSlots).toNat = .ok (w₁, none) ∧
      hashTableInsert mem 1 w₁ p.key p.data = .ok (w', 0)

/-- An insert into a full slot that grows: one call of itself further. -/
theorem hashTableInsert_full {mem : Nat → Malloc δ} {w : World δ} {i cap : Nat} {slt : Slot δ} {p : ChainHook δ}
    {chain : List (ChainHook δ)} {usage : Int} (hmem : (mem w.calls).ok = true) (hkey : hashKey p.key w.ht.nrSlots = i)
    (hload : load w.ht.slots i = .ok slt) (h : slt.Holds cap chain) (hfull : chain.length = cap) (hpos : 1 ≤ cap)
    (husage : hashTableUsage w.ht = .ok usage) (hle : usage ≤ 90) (hint : 2 * (cap : Int) ≤ intMax) :
    ∃ slt', slt'.Holds (2 * cap) (chain ++ [p]) ∧ (∀ r, hashTableInsert mem 1 w p.key p.data ≠ .ok r) ∧
      RecursesOnce mem w p { w.setSlot i slt' with calls := w.calls + 1 } ∧
      ∀ d, hashTableInsert mem (d + 2) w p.key p.data =
        .ok ({ w.setSlot i slt' with calls := w.calls + 1 }, 0) := by
  obtain ⟨slt₁, h₁, hexp⟩ := slotChainHooksExpand_holds hmem hload h (Nat.le_of_eq hfull) hint
  have hi : i < w.ht.slots.length := (List.getElem?_eq_some_iff.1 (load_ok_iff.1 hload)).1
  let w₁ : World δ := { w.setSlot i slt₁ with calls := w.calls + 1 }
  have hload₁ : load w₁.ht.slots i = .ok slt₁ := by
    rw [load_ok (by simpa [w₁, World.setSlot] using hi)]
    simp [w₁, World.setSlot]
  obtain ⟨slt₂, h₂, hput⟩ := hashTableInsert_room mem (p := p) (w := w₁) hkey hload₁ h₁ (by omega)
  have heq : slt.nextChainHook = slt.nrChainHooks := by rw [h.next, h.nr, hfull]
  have hstep : ∀ d, hashTableInsert mem (d + 1) w p.key p.data =
      (hashTableInsert mem d w₁ p.key p.data >>= fun r => .ok (r.1, 0)) := by
    intro d
    rw [hashTableInsert, hkey, index_natCast, ok_bind, hload, ok_bind, if_pos heq, grow, husage, ok_bind,
      if_neg (by omega), hexp, ok_bind, ok_bind]
  have hmove : w₁.setSlot i slt₂ = { w.setSlot i slt₂ with calls := w.calls + 1 } := by simp [w₁, World.setSlot]
  refine ⟨slt₂, h₂, fun r hr => ?_, .inr ⟨w₁, ?_, ?_⟩, fun d => ?_⟩
  · rw [hstep, hashTableInsert, error_bind] at hr
    cases hr
  · rwa [hkey, Int.toNat_natCast]
  · rw [hput 0, hmove]
  · rw [hstep, hput, ok_bind, hmove]

/-- **One insert that fits** keeps the chains, and needs at most one call of
itself further. -/
theorem hashTableInsert_chains {n m : Nat} {mem : Nat → Malloc δ} {pairs : List (ChainHook δ)} {w : World δ}
    {p : ChainHook δ} (hsz : Sized n m) (h : Chains n m pairs w.ht) (hfit : Fits n m pairs p.key)
    (hmem : SlotFull w.ht p.key → (mem w.calls).ok = true) :
    ∃ w', Chains n m (pairs ++ [p]) w'.ht ∧ RecursesOnce mem w p w' ∧
      (∀ d, hashTableInsert mem (d + 2) w p.key p.data = .ok (w', 0)) ∧
      ∀ d r, hashTableInsert mem d w p.key p.data = .ok r → r = (w', 0) := by
  let i := slotOf n p.key
  let len := (chain n pairs i).length
  have hkey : hashKey p.key w.ht.nrSlots = i := by rw [h.nrSlots]; exact hsz.hashKey_eq p.key
  have hi : i < w.ht.slots.length := h.slotOf_lt hsz p.key
  have hlen : (chain n (pairs ++ [p]) i).length = len + 1 := by
    rw [chain_append_same, List.length_append, List.length_singleton]
  have hother : ∀ j ≠ i, chain n (pairs ++ [p]) j = chain n pairs j := fun j hj => chain_append_other pairs hj
  have hzero : ∀ r, hashTableInsert mem 0 w p.key p.data ≠ .ok r := fun r hr => by cases hr
  by_cases hfull : len = capacity m len
  · obtain ⟨⟨usage, husage, hle⟩, hint⟩ := hfit hfull
    rw [← h.usage_eq] at husage
    have hgot := hmem ((h.slotFull_iff hsz p.key).2 hfull)
    obtain ⟨slt', hslt', hone, honce, htwo⟩ := hashTableInsert_full hgot hkey (load_ok hi) (h.slot i hi) hfull
      (capacity_pos hsz.pos len) husage hle hint
    refine ⟨_, ?_, honce, htwo, fun d r hr => ?_⟩
    · refine h.setSlot (i := i) ?_ hother
      rwa [hlen, capacity, if_pos hfull, chain_append_same]
    · match d, hr with
      | 0, hr => exact absurd hr (hzero r)
      | 1, hr => exact absurd hr (hone r)
      | d + 2, hr =>
        rw [htwo] at hr
        cases hr
        rfl
  · have hle := le_capacity hsz.pos len
    obtain ⟨slt', hslt', hput⟩ := hashTableInsert_room mem (p := p) hkey (load_ok hi) (h.slot i hi)
      (show len < capacity m len by omega)
    refine ⟨_, ?_, .inl (hput 0), fun d => hput (d + 1), fun d r hr => ?_⟩
    · refine h.setSlot (i := i) ?_ hother
      rwa [hlen, capacity, if_neg hfull, chain_append_same]
    · cases d with
      | zero => exact absurd hr (hzero r)
      | succ d =>
        rw [hput] at hr
        cases hr
        rfl

/-! ## An insert that does not fit -/

/-- Memory of zero bytes: slots of no capacity with a null pointer. -/
def zeroSlot : Slot δ := ⟨0, 0, none⟩

/-- A table whose slots are all zero bytes. -/
def Zeroed (ht : HashTable δ) : Prop := 0 < ht.nrSlots ∧ ∀ slt ∈ ht.slots, slt = zeroSlot

theorem load_zeroed {ht : HashTable δ} (h : Zeroed ht) {i : Nat} {slt : Slot δ} (hl : load ht.slots i = .ok slt) :
    slt = zeroSlot := h.2 slt (List.mem_of_getElem? (load_ok_iff.1 hl))

theorem hashTableUsage_zeroed {ht : HashTable δ} (h : Zeroed ht) (r : Int) : hashTableUsage ht ≠ .ok r := by
  intro hr
  obtain ⟨usage, hloop, -⟩ := bind_ok_iff.1 hr
  have hpos := h.1
  obtain ⟨u, u', hbody⟩ := forUp_body_ok hloop 0 (Nat.le_refl 0) (by omega)
  obtain ⟨slt, hload, hrest⟩ := bind_ok_iff.1 hbody
  rw [load_zeroed h hload] at hrest
  have hzero : slotUsage (zeroSlot : Slot δ) = .error .divZero := rfl
  rw [hzero, error_bind] at hrest
  cases hrest

/-- An insert into it finds its slot full, at 0 of 0, and asks for the usage. -/
theorem hashTableInsert_zeroed {mem : Nat → Malloc δ} {w : World δ} (h : Zeroed w.ht) (d : Nat) (key : BitVec 32)
    (data : δ) (r : World δ × Int) : hashTableInsert mem d w key data ≠ .ok r := by
  intro hr
  cases d with
  | zero => cases hr
  | succ d =>
    obtain ⟨i, -, hr⟩ := bind_ok_iff.1 hr
    obtain ⟨slt, hload, hr⟩ := bind_ok_iff.1 hr
    have hfull : (zeroSlot : Slot δ).nextChainHook = (zeroSlot : Slot δ).nrChainHooks := rfl
    rw [load_zeroed h hload, if_pos hfull] at hr
    obtain ⟨w', hgrow, -⟩ := bind_ok_iff.1 hr
    obtain ⟨usage, husage, -⟩ := bind_ok_iff.1 hgrow
    exact hashTableUsage_zeroed h usage husage

/-- The loop over the old slots passes the empty ones and fails at the first
that holds a pair. -/
theorem expand_zeroed {insert : Insert δ} {old : List (Slot δ)} {w : World δ} (hins : ∀ k d r, insert w k d ≠ .ok r)
    {j : Nat} (hj : (j : Int) < w.ht.nrSlots.tdiv 2) {slt : Slot δ} (hslt : load old j = .ok slt)
    (hpair : 0 < slt.nextChainHook) :
    ∀ {fuel i : Nat}, i ≤ j → ∀ r, loop (expandTurn insert old) fuel (i, w) ≠ .ok r := by
  intro fuel
  induction fuel with
  | zero => intro i _ r hr; cases hr
  | succ fuel ih =>
    intro i hij r hr
    rw [loop] at hr
    obtain ⟨t, hturn, hr⟩ := bind_ok_iff.1 hr
    simp only [expandTurn, show (i : Int) < w.ht.nrSlots.tdiv 2 by omega, if_true] at hturn
    obtain ⟨slt', hload, hturn⟩ := bind_ok_iff.1 hturn
    obtain ⟨w', hre, hturn⟩ := bind_ok_iff.1 hturn
    cases hturn
    unfold reinsertSlot at hre
    cases hn : slt'.nextChainHook.toNat with
    | zero =>
      rw [hn] at hre
      cases hre
      have hne : i ≠ j := by
        intro heq
        subst heq
        rw [hslt] at hload
        cases hload
        omega
      exact ih (by omega) r hr
    | succ k =>
      rw [hn, forUp] at hre
      obtain ⟨w'', hbody, -⟩ := bind_ok_iff.1 hre
      obtain ⟨hooks, -, hbody⟩ := bind_ok_iff.1 hbody
      obtain ⟨ch, -, hbody⟩ := bind_ok_iff.1 hbody
      obtain ⟨r', hins', -⟩ := bind_ok_iff.1 hbody
      exact hins _ _ _ hins'

/-- With zero bytes in the fresh slots, a table that holds a pair cannot be
expanded. -/
theorem hashTableExpand_zeroed {mem : Nat → Malloc δ} {w : World δ} (hmem : (mem w.calls).ok = true)
    (hjunk : ∀ k i, (mem k).slot i = zeroSlot) {i : Nat} (hi : (i : Int) < w.ht.nrSlots) {slt : Slot δ}
    (hslt : load w.ht.slots i = .ok slt) (hpair : 0 < slt.nextChainHook) (d : Nat) (r : World δ × Int) :
    hashTableExpand mem (hashTableInsert mem d) w ≠ .ok r := by
  intro hr
  obtain ⟨dbl, hdbl, hr⟩ := bind_ok_iff.1 hr
  obtain ⟨nr, hindex, hr⟩ := bind_ok_iff.1 hr
  have hslots : (mem w.calls).slots nr = some ((List.range nr).map (mem w.calls).slot) :=
    Alloc.malloc_ok hmem nr
  rw [hslots] at hr
  obtain ⟨y, hloop, -⟩ := bind_ok_iff.1 hr
  have hnr : (nr : Int) = w.ht.nrSlots * 2 := by
    unfold int at hdbl
    split at hdbl <;> cases hdbl
    unfold index at hindex
    split at hindex <;> cases hindex
    omega
  have hzero : @Zeroed δ ⟨nr, (List.range nr).map (mem w.calls).slot⟩ := by
    refine ⟨by simp only [hnr]; omega, fun slt hslt => ?_⟩
    obtain ⟨k, -, rfl⟩ := List.mem_map.1 hslt
    exact hjunk _ _
  refine expand_zeroed (fun k d' r' => hashTableInsert_zeroed hzero d k d' r') (j := i) ?_ hslt hpair (Nat.zero_le i) y
    hloop
  simp only [hnr, Int.mul_tdiv_cancel _ (show (2 : Int) ≠ 0 by decide)]
  exact hi

theorem slotChainHooksExpand_isInt {mem : Nat → Malloc δ} {w : World δ} (hmem : (mem w.calls).ok = true) {i cap : Nat}
    {slt : Slot δ} (hslt : load w.ht.slots i = .ok slt) (hnr : slt.nrChainHooks = cap) {x : World δ × Option Int}
    (h : slotChainHooksExpand mem w i = .ok x) : 2 * (cap : Int) ≤ intMax := by
  unfold slotChainHooksExpand at h
  have hnew : (mem w.calls).hooks (cap * 2) = some ((List.range (cap * 2)).map (mem w.calls).hook) :=
    Alloc.malloc_ok hmem _
  simp only [hslt, ok_bind, hnr, Int.toNat_natCast, if_pos (Int.natCast_nonneg cap), hnew] at h
  obtain ⟨old, -, h⟩ := bind_ok_iff.1 h
  split at h
  · obtain ⟨nr', hint, -⟩ := bind_ok_iff.1 h
    unfold int at hint
    split at hint
    · next hdbl =>
      exact Int.mul_comm 2 (cap : Int) ▸ hdbl.2
    · cases hint
  · cases h

/-- The state with the `malloc`s that failed counted. -/
def World.starved (w : World δ) : World δ := { w with calls := w.calls + 1 }

theorem grow_starved {mem : Nat → Malloc δ} {insert : Insert δ} {w w' : World δ} {i : Nat}
    (hmem : (mem w.calls).ok = false) (h : grow mem insert w i = .ok w') : w' = w.starved := by
  obtain ⟨usage, -, h⟩ := bind_ok_iff.1 h
  split at h
  · obtain ⟨⟨x, r⟩, hexp, hx⟩ := bind_ok_iff.1 h
    cases hx
    obtain ⟨dbl, -, hexp⟩ := bind_ok_iff.1 hexp
    obtain ⟨nr, -, hexp⟩ := bind_ok_iff.1 hexp
    have hslots : (mem w.calls).slots nr = none := by simp [Malloc.slots, Alloc.malloc, hmem]
    rw [hslots] at hexp
    cases hexp
    rfl
  · obtain ⟨⟨x, r⟩, hexp, hx⟩ := bind_ok_iff.1 h
    cases hx
    obtain ⟨slt, -, hexp⟩ := bind_ok_iff.1 hexp
    have hhooks : (if 0 ≤ slt.nrChainHooks then (mem w.calls).hooks (slt.nrChainHooks.toNat * 2) else none) = none := by
      simp [Malloc.hooks, Alloc.malloc, hmem]
    simp only [hhooks] at hexp
    cases hexp
    rfl

/-- An insert that returns from a full slot has grown something, or has called
itself on the same table. -/
theorem hashTableInsert_grown {mem : Nat → Malloc δ} {w : World δ} {key : BitVec 32} {data : δ} {d : Nat}
    {x : World δ × Int} (hfull : SlotFull w.ht key) (h : hashTableInsert mem (d + 1) w key data = .ok x) :
    ∃ w₁ r, grow mem (hashTableInsert mem d) w (hashKey key w.ht.nrSlots).toNat = .ok w₁ ∧
      hashTableInsert mem d w₁ key data = .ok (x.1, r) ∧ x.2 = 0 := by
  obtain ⟨i, hi, h⟩ := bind_ok_iff.1 h
  obtain ⟨slt, hload, h⟩ := bind_ok_iff.1 h
  obtain ⟨slt', hload', heq⟩ := hfull
  obtain rfl : i = (hashKey key w.ht.nrSlots).toNat := by
    unfold index at hi
    split at hi <;> cases hi
    rfl
  rw [hload] at hload'
  cases hload'
  rw [if_pos heq] at h
  obtain ⟨w₁, hgrow, h⟩ := bind_ok_iff.1 h
  obtain ⟨⟨w₂, r⟩, hrec, h⟩ := bind_ok_iff.1 h
  cases h
  exact ⟨w₁, r, hgrow, hrec, rfl⟩

/-- **One insert that does not fit**: with zero bytes in the fresh slots it
returns at no depth, whatever `malloc` does. -/
theorem hashTableInsert_unfit {n m : Nat} {mem : Nat → Malloc δ} {pairs : List (ChainHook δ)} {p : ChainHook δ}
    (hsz : Sized n m) (hjunk : ∀ k i, (mem k).slot i = zeroSlot) (hunfit : ¬ Fits n m pairs p.key) (d : Nat) :
    ∀ {w : World δ}, Chains n m pairs w.ht → ∀ r, hashTableInsert mem d w p.key p.data ≠ .ok r := by
  obtain ⟨hlen, hno⟩ := Classical.not_imp.1 hunfit
  induction d with
  | zero => intro w _ r hr; cases hr
  | succ d ih =>
    intro w h r hr
    obtain ⟨w₁, r₁, hgrow, hrec, -⟩ := hashTableInsert_grown ((h.slotFull_iff hsz p.key).2 hlen) hr
    cases hmem : (mem w.calls).ok with
    | false =>
      rw [grow_starved hmem hgrow] at hrec
      exact ih (w := w.starved) h _ hrec
    | true =>
      have hi := h.slotOf_lt hsz p.key
      have hslot := h.slot _ hi
      have hpos := capacity_pos hsz.pos (chain n pairs (slotOf n p.key)).length
      obtain ⟨usage, husage, hgrow⟩ := bind_ok_iff.1 hgrow
      rw [h.nrSlots, hsz.hashKey_eq, Int.toNat_natCast] at hgrow
      split at hgrow
      · obtain ⟨x, hexp, -⟩ := bind_ok_iff.1 hgrow
        refine hashTableExpand_zeroed hmem hjunk (i := slotOf n p.key) ?_ (load_ok hi) ?_ d x hexp
        · rw [h.nrSlots]
          exact Int.ofNat_lt.2 (hsz.slotOf_lt p.key)
        · rw [hslot.next]
          omega
      · next hle =>
        obtain ⟨x, hexp, -⟩ := bind_ok_iff.1 hgrow
        have hint := slotChainHooksExpand_isInt hmem (load_ok hi) hslot.nr hexp
        exact hno ⟨⟨usage, h.usage_eq ▸ husage, by omega⟩, hint⟩

/-! ## Runs -/

/-- A sequence whose every insert fits, what came before it included. -/
def AllFit (n m : Nat) (before pairs : List (ChainHook δ)) : Prop :=
  ∀ pre p post, pairs = pre ++ p :: post → Fits n m (before ++ pre) p.key

theorem AllFit.tail {n m : Nat} {before pairs : List (ChainHook δ)} {p : ChainHook δ}
    (h : AllFit n m before (p :: pairs)) : AllFit n m (before ++ [p]) pairs := by
  intro pre q post he
  have := h (p :: pre) q post (by rw [he, List.cons_append])
  rwa [List.append_assoc, List.singleton_append]

/-- **A sequence that fits** keeps the chains; a run of it that returns, at
whatever depth, ends in the same table. -/
theorem insertAll_chains {n m : Nat} {mem : Nat → Malloc δ} (hsz : Sized n m) (hmem : ∀ k, (mem k).ok = true) :
    ∀ {pairs before : List (ChainHook δ)} {w : World δ}, Chains n m before w.ht → AllFit n m before pairs →
      ∃ w', Chains n m (before ++ pairs) w'.ht ∧ (∀ d, insertAll mem (d + 2) w pairs = .ok w') ∧
        ∀ d r, insertAll mem d w pairs = .ok r → r = w' := by
  intro pairs
  induction pairs with
  | nil =>
    intro before w h _
    refine ⟨w, by rwa [List.append_nil], fun d => rfl, fun d r hr => ?_⟩
    cases hr
    rfl
  | cons p pairs ih =>
    intro before w h hfit
    obtain ⟨w₁, h₁, -, hone, huniq₁⟩ := hashTableInsert_chains (p := p) hsz h
      (by simpa using hfit [] p pairs rfl) fun _ => hmem _
    obtain ⟨w₂, h₂, hall, huniq₂⟩ := ih h₁ hfit.tail
    refine ⟨w₂, by rwa [← List.append_cons] at h₂, fun d => ?_, fun d r hr => ?_⟩
    · rw [insertAll, hone, ok_bind]
      exact hall d
    · obtain ⟨r₁, hr₁, hr⟩ := bind_ok_iff.1 hr
      rw [huniq₁ d r₁ hr₁] at hr
      exact huniq₂ d r hr

theorem insertAll_append {mem : Nat → Malloc δ} {d : Nat} {l₁ l₂ : List (ChainHook δ)} :
    ∀ {w : World δ}, insertAll mem d w (l₁ ++ l₂) = (insertAll mem d w l₁ >>= fun w => insertAll mem d w l₂) := by
  induction l₁ with
  | nil => intro w; rfl
  | cons p l₁ ih =>
    intro w
    simp only [List.cons_append, insertAll, bind_assoc, ih]

/-- What a table should be after `pairs` were inserted. -/
structure Kept (ht : HashTable δ) (pairs : List (ChainHook δ)) : Prop where
  stored : (ht.pairs : Multiset (ChainHook δ)) = pairs
  placed : ∀ (i : Nat) (h : i < ht.slots.length), ∀ p ∈ ht.slots[i].pairs, hashKey p.key ht.nrSlots = i
  bounds : ∀ slt ∈ ht.slots, 0 ≤ slt.nextChainHook ∧ slt.nextChainHook ≤ slt.nrChainHooks

theorem flatMap_filter_perm {α : Type} (f : α → Nat) (l : List α) (n : Nat) :
    (List.range n).flatMap (fun i => l.filter fun a => f a = i) ~ l.filter fun a => f a < n := by
  induction n with
  | zero => simp
  | succ n ih =>
    rw [List.range_succ, List.flatMap_append, List.flatMap_singleton]
    have hsplit := List.filter_append_perm (fun a => decide (f a < n)) (l.filter fun a => f a < n + 1)
    simp only [List.filter_filter] at hsplit
    refine ((ih.append_right _).trans (.of_eq ?_)).trans hsplit
    congr 1
    · apply List.filter_congr
      grind
    · apply List.filter_congr
      grind

theorem Chains.kept {n m : Nat} {pairs : List (ChainHook δ)} {ht : HashTable δ} (hsz : Sized n m)
    (h : Chains n m pairs ht) : Kept ht pairs := by
  have hslot : ∀ (i : Nat) (hi : i < ht.slots.length), ht.slots[i].pairs = chain n pairs i := fun i hi =>
    (h.slot i hi).pairs_eq
  have hpairs : ht.slots.map Slot.pairs = (List.range n).map (chain n pairs) := by
    apply List.ext_getElem
    · rw [List.length_map, List.length_map, List.length_range, h.length]
    · intro i h₁ h₂
      rw [List.getElem_map, List.getElem_map, List.getElem_range, hslot i (by simpa using h₁)]
  refine ⟨?_, fun i hi p hp => ?_, fun slt hslt => ?_⟩
  · have hperm := flatMap_filter_perm (fun p : ChainHook δ => slotOf n p.key) pairs n
    rw [List.filter_eq_self.2 fun p _ => decide_eq_true (hsz.slotOf_lt p.key), List.flatMap_def] at hperm
    rw [Multiset.coe_eq_coe, HashTable.pairs, List.flatMap_def, hpairs]
    exact hperm
  · rw [hslot i hi] at hp
    have hkey : slotOf n p.key = i := by simpa using (List.mem_filter.1 hp).2
    rw [h.nrSlots, hsz.hashKey_eq, hkey]
  · obtain ⟨i, hi, rfl⟩ := List.getElem_of_mem hslt
    have hs := h.slot i hi
    have := le_capacity hsz.pos (chain n pairs i).length
    rw [hs.next, hs.nr]
    omega

/-- Every allocation succeeds, with zero bytes for slots. -/
def zeroMem (junk : ChainHook δ) : Nat → Malloc δ := fun _ => ⟨true, fun _ => zeroSlot, fun _ => junk⟩

theorem run_unfit {n m : Nat} (hsz : Sizes n m) {pre post : List (ChainHook δ)} {p : ChainHook δ}
    (hpre : AllFit n m [] pre) (hunfit : ¬ Fits n m pre p.key) (junk : ChainHook δ) (depth : Nat) (w : World δ) :
    run (zeroMem junk) depth n m (pre ++ p :: post) ≠ .ok w := by
  intro hrun
  have hmem : ∀ k, (zeroMem junk k).ok = true := fun _ => rfl
  obtain ⟨w₀, hcreate, hempty⟩ := hashTableCreate_chains (n := n) hsz.isInt fun k _ => hmem k
  obtain ⟨w₁, h₁, -, huniq⟩ := insertAll_chains hsz.sized hmem hempty hpre
  rw [run, hcreate, ok_bind, insertAll_append] at hrun
  obtain ⟨w₁', hr₁, hrun⟩ := bind_ok_iff.1 hrun
  rw [huniq depth w₁' hr₁] at hrun
  obtain ⟨r, hr, -⟩ := bind_ok_iff.1 hrun
  exact hashTableInsert_unfit hsz.sized (fun _ _ => rfl) hunfit depth h₁ r hr

/-- **When a table keeps every insert.** For every table with a power of two
of slots and every sequence of inserts whose allocations succeed: whatever
fresh memory holds, the calls return and leave exactly the pairs inserted,
each in its slot and every slot within its capacity, if and only if every
insert into a full slot finds a usage of at most 90 (one that `int`
arithmetic can compute) and a capacity it can double; that is, as long as
`hash_table_expand` is never called. -/
theorem run_kept_iff {n m : Nat} (hsz : Sizes n m) (pairs : List (ChainHook δ)) :
    (∀ mem : Nat → Malloc δ, (∀ k, (mem k).ok = true) →
      ∃ depth w, run mem depth n m pairs = .ok w ∧ Kept w.ht pairs) ↔ AllFit n m [] pairs := by
  constructor
  · intro h
    -- By induction on what comes before: up to there every insert fits.
    have hind : ∀ len pre p post, pre.length = len → pairs = pre ++ p :: post → Fits n m pre p.key := by
      intro len
      induction len using Nat.strong_induction_on with
      | _ len ih =>
        intro pre p post hlen he
        by_contra hunfit
        have hpre : AllFit n m [] pre := by
          intro pre' q post' he'
          refine ih pre'.length ?_ pre' q (post' ++ p :: post) rfl ?_
          · rw [← hlen, he', List.length_append, List.length_cons]; omega
          · rw [he, he', List.append_assoc, List.cons_append]
        obtain ⟨depth, w, hrun, -⟩ := h (zeroMem p) fun _ => rfl
        exact run_unfit hsz hpre hunfit p depth w (he ▸ hrun)
    exact fun pre p post he => hind _ pre p post rfl he
  · intro hfit mem hmem
    obtain ⟨w₀, hcreate, hempty⟩ := hashTableCreate_chains (n := n) hsz.isInt fun k _ => hmem k
    obtain ⟨w, h, hrun, -⟩ := insertAll_chains hsz.sized hmem hempty hfit
    exact ⟨2, w, by rw [run, hcreate, ok_bind, hrun 0], h.kept hsz.sized⟩

theorem run_kept_iff_sample :
    ∃ depth w, run (zeroMem (δ := BitVec 64) ⟨0, 0⟩) depth 2 1 [⟨3, 1⟩, ⟨-1, 2⟩] = .ok w ∧
      Kept w.ht [⟨3, 1⟩, ⟨-1, 2⟩] := by
  have hsz : Sizes 2 1 := ⟨⟨1, by decide, rfl⟩, by decide, by decide⟩
  refine (run_kept_iff hsz _).2 (fun pre p post he => ?_) (zeroMem ⟨0, 0⟩) fun _ => rfl
  match pre, he with
  | [], he =>
    cases he
    exact fun hfull => absurd hfull (by decide)
  | [q], he =>
    cases he
    exact fun _ => ⟨⟨50, by decide, by decide⟩, by decide⟩
  | _ :: _ :: _, he => simp at he

/-- One slot for one pair: the second insert expands the table, and with zero
bytes in the new slots it does not return. -/
theorem run_loses_pairs :
    ¬ ∃ depth w, run (zeroMem (δ := BitVec 64) ⟨0, 0⟩) depth 1 1 [⟨3, 1⟩, ⟨-1, 2⟩] = .ok w := by
  intro hexists
  obtain ⟨depth, w, hrun⟩ := hexists
  have hsz : Sizes 1 1 := ⟨⟨0, by decide, rfl⟩, by decide, by decide⟩
  have hpre : AllFit (δ := BitVec 64) 1 1 [] [⟨3, 1⟩] := by
    intro pre p post he
    match pre, he with
    | [], he =>
      cases he
      exact fun hfull => absurd hfull (by decide)
    | _ :: _, he => simp at he
  refine run_unfit hsz hpre (fun hfit => ?_) ⟨0, 0⟩ depth w hrun
  obtain ⟨⟨usage, husage, hle⟩, -⟩ := hfit (by decide)
  have hall : hashTableUsage (shape (δ := BitVec 64) 1 1 [⟨3, 1⟩]) = .ok 100 := by decide
  rw [hall] at husage
  cases husage
  omega

end SugarNSpice.MyHash
