/-
What `hash_table_insert` makes of a `malloc` that fails.

Both growths report a failure, and `hash_table_insert` does not look: it calls
itself on the table as it was, and the growth is tried again (`grow_starved`).
So an insert into a full slot returns only after a growth that succeeded, with
0 and the pair stored, and not at all if none does.
-/
import SugarNSpice.MyHashFacts

namespace SugarNSpice.MyHash

open CLang

variable {δ : Type}

/-! ## What an insert is to do -/

/-- The slot of the key can be doubled: the usage is computed without overflow
and at most 90, so that the table is not expanded, and the new capacity is an
`int`. -/
def CanGrow (ht : HashTable δ) (key : BitVec 32) : Prop :=
  (∃ usage, hashTableUsage ht = .ok usage ∧ usage ≤ 90) ∧
    ∃ slt, load ht.slots (hashKey key ht.nrSlots).toNat = .ok slt ∧ 2 * slt.nrChainHooks ≤ intMax

/-- The tables made by `hash_table_create` and inserts that do not expand them,
whatever else their calls of `malloc` came to. -/
inductive Reached (mem : Nat → Malloc δ) (n m : Nat) : World δ → Prop
  | create {w} : hashTableCreate mem n m = .ok w → Reached mem n m w
  | insert {w key data d w' r} : Reached mem n m w →
    (SlotFull w.ht key → ∃ usage, hashTableUsage w.ht = .ok usage ∧ usage ≤ 90) →
    hashTableInsert mem d w key data = .ok (w', r) → Reached mem n m w'

/-- The insert returns, for calls of `malloc` that succeed as `oks` says and
hand out anything. -/
def Returns (oks : Nat → Bool) (w : World δ) (key : BitVec 32) (data : δ) : Prop :=
  ∀ mem : Nat → Malloc δ, (∀ k, (mem k).ok = oks k) → ∃ d x, hashTableInsert mem d w key data = .ok x

/-- It returns, and where the growth it needs is not allocated it returns a
non-zero value and leaves the pairs alone. -/
def Survives (oks : Nat → Bool) (w : World δ) (key : BitVec 32) (data : δ) : Prop :=
  ∀ mem : Nat → Malloc δ, (∀ k, (mem k).ok = oks k) → ∃ d w' r, hashTableInsert mem d w key data = .ok (w', r) ∧
    (SlotFull w.ht key → oks w.calls = false → r ≠ 0 ∧ w'.ht.pairs = w.ht.pairs)

/-- The tables made by `hash_table_create` and inserts that return, with the
pairs they were given. -/
inductive Made (mem : Nat → Malloc δ) (n m : Nat) : List (ChainHook δ) → World δ → Prop
  | create {w} : hashTableCreate mem n m = .ok w → Made mem n m [] w
  | insert {pairs p d w w' r} : Made mem n m pairs w →
    hashTableInsert mem d w p.key p.data = .ok (w', r) → Made mem n m (pairs ++ [p]) w'

/-- `P` holds of each insert of a run, at the table it finds. -/
def EachInsert (mem : Nat → Malloc δ) (n m : Nat) (pairs : List (ChainHook δ)) (P : World δ → ChainHook δ → Prop) :
    Prop := ∀ pre p w, pre ++ [p] <+: pairs → Made mem n m pre w → P w p

/-- The growth an insert needs, if it needs one, is of its slot and allocated
at once. -/
def Meets (oks : Nat → Bool) (w : World δ) (key : BitVec 32) : Prop :=
  SlotFull w.ht key → CanGrow w.ht key ∧ oks w.calls = true

/-! ## Reached tables -/

theorem hashTableCreate_mem {mem : Nat → Malloc δ} {n m : Nat} {w : World δ} (h : hashTableCreate mem n m = .ok w) :
    ∀ k < 2 + n, (mem k).ok = true := by
  have hsome : ∀ {α : Type} {a : Alloc α} {k : Nat} {b : List α}, a.malloc k = some b → a.ok = true := by
    intro α a k b hb
    by_contra hno
    simp [Alloc.malloc, hno] at hb
  obtain ⟨u, hself, h⟩ := bind_ok_iff.1 h
  obtain ⟨slots, hslots, h⟩ := bind_ok_iff.1 h
  obtain ⟨slots', hinit, -⟩ := bind_ok_iff.1 h
  intro k hk
  obtain rfl | rfl | ⟨i, rfl⟩ : k = 0 ∨ k = 1 ∨ ∃ i, k = 2 + i := by
    by_cases h2 : 2 ≤ k
    · exact .inr (.inr (Nat.exists_eq_add_of_le h2))
    · omega
  · by_contra hno
    rw [if_neg hno] at hself
    cases hself
  · cases hm : (mem 1).slots n with
    | none => rw [hm] at hslots; cases hslots
    | some b => exact hsome hm
  · obtain ⟨t, t', hbody⟩ := forUp_body_ok hinit i (Nat.zero_le i) (by omega)
    obtain ⟨slt, hslt, -⟩ := bind_ok_iff.1 hbody
    unfold slotInit at hslt
    cases hm : (mem (2 + i)).hooks m with
    | none => rw [hm] at hslt; cases hslt
    | some b => exact hsome hm

theorem Chains.canGrow_iff {n m : Nat} {pairs : List (ChainHook δ)} {ht : HashTable δ} (hsz : Sized n m)
    (h : Chains n m pairs ht) (key : BitVec 32) : Fits n m pairs key ↔ (SlotFull ht key → CanGrow ht key) := by
  have hi := h.slotOf_lt hsz key
  unfold Fits CanGrow
  rw [h.slotFull_iff hsz, h.usage_eq, h.load_slot hi]
  simp only [Except.ok.injEq, exists_eq_left', (h.slot _ hi).nr]

theorem hashTableInsert_returned {n m : Nat} {mem : Nat → Malloc δ} {pairs : List (ChainHook δ)} {p : ChainHook δ}
    (hsz : Sized n m) {d : Nat} :
    ∀ {w : World δ} {x : World δ × Int}, Chains n m pairs w.ht →
      (SlotFull w.ht p.key → ∃ usage, hashTableUsage w.ht = .ok usage ∧ usage ≤ 90) →
      hashTableInsert mem d w p.key p.data = .ok x → Chains n m (pairs ++ [p]) x.1.ht := by
  induction d with
  | zero => intro w x _ _ hr; cases hr
  | succ d ih =>
    intro w x h hlow hr
    have huniq : Fits n m pairs p.key → (SlotFull w.ht p.key → (mem w.calls).ok = true) →
        Chains n m (pairs ++ [p]) x.1.ht := by
      intro hfit hmem
      obtain ⟨w', h', -, -, huniq⟩ := hashTableInsert_chains hsz h hfit hmem
      rw [huniq _ _ hr]
      exact h'
    by_cases hfull : SlotFull w.ht p.key
    · obtain ⟨w₁, r₁, hgrow, hrec, -⟩ := hashTableInsert_grown hfull hr
      cases hmem : (mem w.calls).ok with
      | false =>
        rw [grow_starved hmem hgrow] at hrec
        exact ih (w := w.starved) (x := (x.1, r₁)) h hlow hrec
      | true =>
        obtain ⟨usage, husage, hle⟩ := hlow hfull
        have hi := h.slotOf_lt hsz p.key
        rw [grow, husage, ok_bind, if_neg (by omega), h.nrSlots, hsz.hashKey_eq, Int.toNat_natCast] at hgrow
        obtain ⟨y, hexp, -⟩ := bind_ok_iff.1 hgrow
        have hint := slotChainHooksExpand_isInt hmem (load_ok hi) (h.slot _ hi).nr hexp
        exact huniq (fun _ => ⟨⟨usage, h.usage_eq ▸ husage, hle⟩, hint⟩) fun _ => hmem
    · exact huniq (fun hlen => absurd ((h.slotFull_iff hsz p.key).2 hlen) hfull) fun hf => absurd hf hfull

theorem Reached.chains {mem : Nat → Malloc δ} {n m : Nat} {w : World δ} (hsz : Sized n m) (h : Reached mem n m w) :
    ∃ pairs, Chains n m pairs w.ht := by
  induction h with
  | @create w h =>
    obtain ⟨w', hw', hchains⟩ := hashTableCreate_chains hsz.isInt (hashTableCreate_mem h)
    rw [h] at hw'
    cases hw'
    exact ⟨[], hchains⟩
  | @insert w key data d w' r _ hlow hr ih =>
    obtain ⟨pairs, hchains⟩ := ih
    exact ⟨_, @hashTableInsert_returned δ n m mem pairs ⟨key, data⟩ hsz d w (w', r) hchains hlow hr⟩

/-! ## An insert whose growth fails -/

/-- The growth of a slot that is not allocated: the call is counted, and that
is all. -/
theorem grow_unallocated {mem : Nat → Malloc δ} {insert : Insert δ} {w : World δ} {i : Nat} {slt : Slot δ}
    {usage : Int} (hmem : (mem w.calls).ok = false) (hload : load w.ht.slots i = .ok slt)
    (husage : hashTableUsage w.ht = .ok usage) (hle : usage ≤ 90) : grow mem insert w i = .ok w.starved := by
  have hhooks : (if 0 ≤ slt.nrChainHooks then (mem w.calls).hooks (slt.nrChainHooks.toNat * 2) else none) = none := by
    simp [Malloc.hooks, Alloc.malloc, hmem]
  have hexp : slotChainHooksExpand mem w i = .ok (w.starved, some (-1)) := by
    rw [slotChainHooksExpand, hload, ok_bind]
    simp only [hhooks, World.starved]
  rw [grow, husage, ok_bind, if_neg (by omega), hexp, ok_bind]

theorem hashTableInsert_retries {mem : Nat → Malloc δ} {w : World δ} {key : BitVec 32} {usage : Int}
    (hmem : (mem w.calls).ok = false) (hkey : 0 ≤ hashKey key w.ht.nrSlots) (hfull : SlotFull w.ht key)
    (husage : hashTableUsage w.ht = .ok usage) (hle : usage ≤ 90) (data : δ) (d : Nat) :
    hashTableInsert mem (d + 1) w key data = (hashTableInsert mem d w.starved key data >>= fun x => .ok (x.1, 0)) := by
  obtain ⟨slt, hload, heq⟩ := hfull
  have hindex : index (hashKey key w.ht.nrSlots) = .ok (hashKey key w.ht.nrSlots).toNat := if_pos hkey
  rw [hashTableInsert, hindex, ok_bind, hload, ok_bind, if_pos heq, grow_unallocated hmem hload husage hle, ok_bind]

theorem hashTableInsert_eventually {n m : Nat} {mem : Nat → Malloc δ} {pairs : List (ChainHook δ)} {p : ChainHook δ}
    (hsz : Sized n m) (hfit : Fits n m pairs p.key) {j : Nat} :
    ∀ {w : World δ}, Chains n m pairs w.ht → SlotFull w.ht p.key → (mem (w.calls + j)).ok = true →
      ∃ d w', hashTableInsert mem d w p.key p.data = .ok (w', 0) := by
  induction j with
  | zero =>
    intro w h _ hok
    obtain ⟨w', -, -, hins, -⟩ := hashTableInsert_chains hsz h hfit fun _ => hok
    exact ⟨2, w', hins 0⟩
  | succ j ih =>
    intro w h hfull hok
    cases hmem : (mem w.calls).ok with
    | true =>
      obtain ⟨w', -, -, hins, -⟩ := hashTableInsert_chains hsz h hfit fun _ => hmem
      exact ⟨2, w', hins 0⟩
    | false =>
      obtain ⟨⟨usage, husage, hle⟩, -⟩ := (h.canGrow_iff hsz p.key).1 hfit hfull
      have hkey : 0 ≤ hashKey p.key w.ht.nrSlots := by
        rw [h.nrSlots, hsz.hashKey_eq]
        exact Int.natCast_nonneg _
      have hlater : (mem (w.starved.calls + j)).ok = true := by
        rw [World.starved, show w.calls + 1 + j = w.calls + (j + 1) by omega]
        exact hok
      obtain ⟨d, w', hins⟩ := ih (w := w.starved) h hfull hlater
      refine ⟨d + 1, w', ?_⟩
      rw [hashTableInsert_retries hmem hkey hfull husage hle, hins, ok_bind]

theorem hashTableInsert_forever {mem : Nat → Malloc δ} {key : BitVec 32} {data : δ} {d : Nat} :
    ∀ {w : World δ}, SlotFull w.ht key → (∀ k, w.calls ≤ k → (mem k).ok = false) →
      ∀ x, hashTableInsert mem d w key data ≠ .ok x := by
  induction d with
  | zero => intro w _ _ x hx; cases hx
  | succ d ih =>
    intro w hfull hmem x hx
    obtain ⟨w₁, r, hgrow, hrec, -⟩ := hashTableInsert_grown hfull hx
    rw [grow_starved (hmem _ (Nat.le_refl _)) hgrow] at hrec
    exact ih (w := w.starved) hfull (fun k hk => hmem k (Nat.le_of_succ_le hk)) _ hrec

/-! ## When it survives -/

/-- Memory that is handed out or not as `oks` says, zero bytes for slots. -/
def zeroWhen (oks : Nat → Bool) (junk : ChainHook δ) : Nat → Malloc δ := fun k =>
  ⟨oks k, fun _ => zeroSlot, fun _ => junk⟩

theorem Returns.canGrow {n m : Nat} {pairs : List (ChainHook δ)} {oks : Nat → Bool} {w : World δ} {p : ChainHook δ}
    (hsz : Sized n m) (h : Chains n m pairs w.ht) (hret : Returns oks w p.key p.data) :
    SlotFull w.ht p.key → CanGrow w.ht p.key := by
  refine (h.canGrow_iff hsz p.key).1 ?_
  by_contra hunfit
  obtain ⟨d, x, hins⟩ := hret (zeroWhen oks p) fun _ => rfl
  exact hashTableInsert_unfit hsz (fun _ _ => rfl) hunfit d h x hins

theorem Chains.returns_iff {n m : Nat} {pairs : List (ChainHook δ)} {oks : Nat → Bool} {w : World δ} {p : ChainHook δ}
    (h : Chains n m pairs w.ht) (hsz : Sized n m) : Returns oks w p.key p.data ↔
      (SlotFull w.ht p.key → CanGrow w.ht p.key ∧ ∃ k, w.calls ≤ k ∧ oks k = true) := by
  constructor
  · intro hret hfull
    refine ⟨hret.canGrow hsz h hfull, ?_⟩
    by_contra hnone
    obtain ⟨d, x, hins⟩ := hret (zeroWhen oks p) fun _ => rfl
    refine hashTableInsert_forever hfull (fun k hk => ?_) x hins
    exact Bool.eq_false_iff.2 fun hok => hnone ⟨k, hk, hok⟩
  · intro hcond mem hoks
    have hfit : Fits n m pairs p.key := (h.canGrow_iff hsz p.key).2 fun hfull => (hcond hfull).1
    by_cases hfull : SlotFull w.ht p.key
    · obtain ⟨-, k, hle, hok⟩ := hcond hfull
      obtain ⟨j, rfl⟩ := Nat.exists_eq_add_of_le hle
      obtain ⟨d, w', hins⟩ := hashTableInsert_eventually hsz hfit h hfull ((hoks _).trans hok)
      exact ⟨d, _, hins⟩
    · obtain ⟨w', -, -, hins, -⟩ := hashTableInsert_chains hsz h hfit fun hf => absurd hf hfull
      exact ⟨2, _, hins 0⟩

theorem Reached.survives_iff {n m : Nat} {mem : Nat → Malloc δ} {w : World δ} (hsz : Sized n m)
    (h : Reached mem n m w) (oks : Nat → Bool) (key : BitVec 32) (data : δ) :
    Survives oks w key data ↔ Meets oks w key := by
  obtain ⟨pairs, hchains⟩ := h.chains hsz
  refine ⟨fun hsurv hfull => ?_, fun hcond mem' hoks => ?_⟩
  · have hret : Returns oks w key data := fun mem' hoks =>
      let ⟨d, w', r, hins, _⟩ := hsurv mem' hoks
      ⟨d, (w', r), hins⟩
    refine ⟨hret.canGrow (p := ⟨key, data⟩) hsz hchains hfull, ?_⟩
    by_contra hno
    obtain ⟨d, w', r, hins, hfail⟩ := hsurv (zeroWhen oks ⟨key, data⟩) fun _ => rfl
    -- The value returned from a full slot is 0.
    cases d with
    | zero => cases hins
    | succ d =>
      obtain ⟨-, -, -, -, hzero⟩ := hashTableInsert_grown hfull hins
      exact (hfail hfull (Bool.eq_false_iff.2 hno)).1 hzero
  · have hfit : Fits n m pairs key := (hchains.canGrow_iff hsz key).2 fun hfull => (hcond hfull).1
    obtain ⟨w', -, -, hins, -⟩ := hashTableInsert_chains (p := ⟨key, data⟩) hsz hchains hfit fun hfull =>
      (hoks _).trans (hcond hfull).2
    refine ⟨2, w', 0, hins 0, fun hfull hfail => ?_⟩
    rw [(hcond hfull).2] at hfail
    cases hfail

theorem Reached.returns_iff {n m : Nat} {mem : Nat → Malloc δ} {w : World δ} (hsz : Sized n m)
    (h : Reached mem n m w) (oks : Nat → Bool) (key : BitVec 32) (data : δ) :
    Returns oks w key data ↔ (SlotFull w.ht key → CanGrow w.ht key ∧ ∃ k, w.calls ≤ k ∧ oks k = true) :=
  let ⟨_, hchains⟩ := h.chains hsz
  hchains.returns_iff (p := ⟨key, data⟩) hsz

theorem Made.reached {n m : Nat} {mem : Nat → Malloc δ} {pairs : List (ChainHook δ)}
    (hmeets : ∀ pre p w, pre ++ [p] <+: pairs → Made mem n m pre w → Reached mem n m w →
      Meets (fun k => (mem k).ok) w p.key) {pre : List (ChainHook δ)} {w : World δ} (h : Made mem n m pre w)
    (hpre : pre <+: pairs) : Reached mem n m w := by
  induction h with
  | create h => exact .create h
  | @insert pre p d w w' r hmade hins ih =>
    have hw := ih ((List.prefix_append _ _).trans hpre)
    exact .insert hw (fun hfull => (hmeets pre p w hpre hmade hw hfull).1.1) hins

/-- **When inserts survive.** For every run of inserts into a table made with
`n` slots of `m` hooks, whatever its calls of `malloc` come to: every insert of
the run returns, with a non-zero value and the pairs as they were if the growth
it needs is not allocated, exactly if every insert of the run needs no growth,
or one of its slot, to an `int` capacity, that is allocated at once. -/
theorem hashTableInsert_survives_iff {n m : Nat} {mem : Nat → Malloc δ} (hsz : Sized n m)
    (pairs : List (ChainHook δ)) :
    EachInsert mem n m pairs (fun w p => Survives (fun k => (mem k).ok) w p.key p.data) ↔
      EachInsert mem n m pairs (fun w p => Meets (fun k => (mem k).ok) w p.key) := by
  constructor
  · intro hsurv pre p w hpre hmade
    have hw : Reached mem n m w := hmade.reached
      (fun pre p w hpre hmade hw => (hw.survives_iff hsz _ _ _).1 (hsurv pre p w hpre hmade))
      ((List.prefix_append _ _).trans hpre)
    exact (hw.survives_iff hsz _ _ _).1 (hsurv pre p w hpre hmade)
  · intro hmeets pre p w hpre hmade
    have hw : Reached mem n m w := hmade.reached (fun pre p w hpre hmade _ => hmeets pre p w hpre hmade)
      ((List.prefix_append _ _).trans hpre)
    exact (hw.survives_iff hsz _ _ _).2 (hmeets pre p w hpre hmade)

theorem Made.of_nil {n m : Nat} {mem : Nat → Malloc δ} {w : World δ} (h : Made mem n m [] w) :
    hashTableCreate mem n m = .ok w := by
  generalize hnil : ([] : List (ChainHook δ)) = pairs at h
  cases h with
  | create h => exact h
  | insert => simp at hnil

theorem Made.of_concat {n m : Nat} {mem : Nat → Malloc δ} {pairs : List (ChainHook δ)} {p : ChainHook δ} {w' : World δ}
    (h : Made mem n m (pairs ++ [p]) w') :
    ∃ d w r, Made mem n m pairs w ∧ hashTableInsert mem d w p.key p.data = .ok (w', r) := by
  generalize hps : pairs ++ [p] = ps at h
  cases h with
  | create => simp at hps
  | @insert pairs p d w w' r hmade hins =>
    obtain ⟨rfl, hp⟩ := List.append_inj' hps rfl
    cases hp
    exact ⟨d, w, r, hmade, hins⟩

/-- Two slots for one pair each. -/
def twoEmpty : World (BitVec 64) := ⟨⟨2, List.replicate 2 ⟨1, 0, some [⟨0, 0⟩]⟩⟩, 4⟩

/-- With key 3 in the second. -/
def halfFull : World (BitVec 64) := ⟨⟨2, [⟨1, 0, some [⟨0, 0⟩]⟩, ⟨1, 1, some [⟨3, 1⟩]⟩]⟩, 4⟩

theorem hashTableInsert_twoEmpty (mem : Nat → Malloc (BitVec 64)) (d : Nat) :
    hashTableInsert mem (d + 1) twoEmpty 3 1 = .ok (halfFull, 0) := rfl

theorem halfFull_slotFull : SlotFull halfFull.ht (-1) := ⟨⟨1, 1, some [⟨3, 1⟩]⟩, rfl, rfl⟩

theorem halfFull_reached : Reached (zeroMem ⟨0, 0⟩) 2 1 halfFull :=
  .insert (.create (w := twoEmpty) rfl) (fun _ => ⟨0, rfl, by decide⟩) (hashTableInsert_twoEmpty _ 0)

theorem Made.eq_halfFull {mem : Nat → Malloc (BitVec 64)} (hcreate : hashTableCreate mem 2 1 = .ok twoEmpty)
    {w : World (BitVec 64)} (h : Made mem 2 1 [⟨3, 1⟩] w) : w = halfFull := by
  obtain ⟨d, w₀, r, hmade, hins⟩ := Made.of_concat (show Made mem 2 1 ([] ++ [⟨3, 1⟩]) w from h)
  rw [Except.ok.inj (hmade.of_nil.symm.trans hcreate)] at hins
  cases d with
  | zero => cases hins
  | succ d =>
    rw [hashTableInsert_twoEmpty] at hins
    cases hins
    rfl

/-- With memory for all of it, both inserts survive: the second slot grows at a
usage of 50. -/
theorem hashTableInsert_survives_iff_sample :
    EachInsert (zeroMem (δ := BitVec 64) ⟨0, 0⟩) 2 1 [⟨3, 1⟩, ⟨-1, 2⟩]
      (fun w p => Survives (fun _ => true) w p.key p.data) := by
  have hsz : Sized 2 1 := ⟨by decide, by decide, by decide, by decide⟩
  have hcreate : hashTableCreate (zeroMem (δ := BitVec 64) ⟨0, 0⟩) 2 1 = .ok twoEmpty := rfl
  refine (hashTableInsert_survives_iff hsz [⟨3, 1⟩, ⟨-1, 2⟩]).2 fun pre p w hpre hmade hfull => ?_
  obtain ⟨rest, hrest⟩ := hpre
  rcases pre with _ | ⟨q, _ | ⟨q', pre⟩⟩
  · -- Key 3 finds its slot empty.
    cases hrest
    rw [Except.ok.inj (hmade.of_nil.symm.trans hcreate)] at hfull
    obtain ⟨slt, hload, heq⟩ := hfull
    cases hload
    cases heq
  · cases hrest
    rw [hmade.eq_halfFull hcreate]
    exact ⟨⟨⟨50, rfl, by decide⟩, ⟨1, 1, some [⟨3, 1⟩]⟩, rfl, by decide⟩, rfl⟩
  · simp at hrest

/-- With no memory left, the insert of -1 behind key 3 never returns. -/
theorem hashTableInsert_never_returns :
    Made (zeroWhen (fun k => decide (k < 4)) ⟨0, 0⟩) 2 1 [⟨3, 1⟩] halfFull ∧
      (∀ d x, hashTableInsert (zeroWhen (fun k => decide (k < 4)) ⟨0, 0⟩) d halfFull (-1) 2 ≠ .ok x) ∧
      ¬ Survives (fun k => decide (k < 4)) halfFull (-1) 2 := by
  have hcreate : Made (zeroWhen (fun k => decide (k < 4)) ⟨0, 0⟩) 2 1 [] twoEmpty := .create rfl
  have hforever : ∀ d x, hashTableInsert (zeroWhen (fun k => decide (k < 4)) ⟨0, 0⟩) d halfFull (-1) 2 ≠ .ok x := by
    intro d
    exact hashTableInsert_forever halfFull_slotFull fun k hk => decide_eq_false (Nat.not_lt.2 hk)
  refine ⟨hcreate.insert (p := ⟨3, 1⟩) (hashTableInsert_twoEmpty _ 0), hforever, fun hsurv => ?_⟩
  obtain ⟨d, w', r, hins, -⟩ := hsurv (zeroWhen _ ⟨0, 0⟩) fun _ => rfl
  exact hforever d _ hins

end SugarNSpice.MyHash
