/-
`test_myhash.c`: a hash table of slots, each a growing array of chain hooks.

`hash_table_insert` into a full slot first grows: the slot, or the whole
table when `hash_table_usage` is over 90. `hash_table_expand` allocates twice
the slots and re-inserts what the old ones hold, but never calls `slot_init`
on the new ones, so an insert after it works on whatever the fresh memory
held. The model keeps that memory: the `k`-th call of `malloc` succeeds or
not and hands out cells with contents of its own (`Malloc`).

Insert and expand call each other; `depth` bounds the nesting of inserts.
Messages on the terminal are left out.
-/
import SugarNSpice.Loops

namespace SugarNSpice.MyHash

open CLang

variable {δ : Type}

structure ChainHook (δ : Type) where
  key : BitVec 32
  data : δ
  deriving DecidableEq, Repr

/-- `slot_t`. `chainHooks` is the block the pointer leads to, if there is
one. -/
structure Slot (δ : Type) where
  nrChainHooks : Int
  nextChainHook : Int
  chainHooks : Option (List (ChainHook δ))
  deriving DecidableEq, Repr

structure HashTable (δ : Type) where
  nrSlots : Int
  slots : List (Slot δ)
  deriving DecidableEq, Repr

/-- What a call of `malloc` comes to: whether it succeeds, and what the fresh
memory holds, read as slots and as hooks. -/
structure Malloc (δ : Type) where
  ok : Bool
  slot : Nat → Slot δ
  hook : Nat → ChainHook δ

def Malloc.slots (a : Malloc δ) (n : Nat) : Option (List (Slot δ)) :=
  Alloc.malloc ⟨a.ok, a.slot⟩ n

def Malloc.hooks (a : Malloc δ) (n : Nat) : Option (List (ChainHook δ)) :=
  Alloc.malloc ⟨a.ok, a.hook⟩ n

/-- A table, and how often `malloc` has been called. -/
structure World (δ : Type) where
  ht : HashTable δ
  calls : Nat

/-- A slot written through its pointer into `ht->slots`. -/
def World.setSlot (w : World δ) (i : Nat) (slt : Slot δ) : World δ :=
  { w with ht := { w.ht with slots := w.ht.slots.set i slt } }

/-! ## Making a table -/

def slotInit (a : Malloc δ) (nrChainHooks : Nat) : Outcome (Slot δ) :=
  match a.hooks nrChainHooks with
  | none => .error .abort
  | some hooks => .ok ⟨nrChainHooks, 0, some hooks⟩

/-- `hash_table_create`, for sizes that are not negative. A failed `malloc`
of the table or of the slots is followed before it is checked. -/
def hashTableCreate (mem : Nat → Malloc δ) (nrSlots nrChainHooks : Nat) : Outcome (World δ) := do
  let _ ← deref (if (mem 0).ok then some () else none)
  let slots ← deref ((mem 1).slots nrSlots)
  let slots ← forUp (fun i slots => do store slots i (← slotInit (mem (2 + i)) nrChainHooks)) nrSlots 0 slots
  .ok ⟨⟨nrSlots, slots⟩, 2 + nrSlots⟩

/-! ## Inserting -/

/-- One slot's share: `slt->next_chain_hook*100/slt->nr_chain_hooks`. -/
def slotUsage (slt : Slot δ) : Outcome Int := do
  int (← div (← int (slt.nextChainHook * 100)) slt.nrChainHooks)

def hashTableUsage (ht : HashTable δ) : Outcome Int := do
  let usage ← forUp (fun i usage => do
    let share ← slotUsage (← load ht.slots i)
    int (usage + share)) ht.nrSlots.toNat 0 0
  div usage ht.nrSlots

/-- `slot_chain_hooks_expand`, on the slot at `i`, with the value it returns:
-1, or none at all. The size given to `malloc` is computed in `size_t`, so a
negative `nr_chain_hooks` asks for more than there is; the doubled one is an
`int` again. -/
def slotChainHooksExpand (mem : Nat → Malloc δ) (w : World δ) (i : Nat) : Outcome (World δ × Option Int) := do
  let slt ← load w.ht.slots i
  let nr := slt.nrChainHooks.toNat
  match if 0 ≤ slt.nrChainHooks then (mem w.calls).hooks (nr * 2) else none with
  | none => .ok ({ w with calls := w.calls + 1 }, some (-1))
  | some newCh => do
    let old ← deref slt.chainHooks
    if nr ≤ old.length then do
      let nr' ← int (slt.nrChainHooks * 2)
      let w := w.setSlot i ⟨nr', slt.nextChainHook, some (old.take nr ++ newCh.drop nr)⟩
      .ok ({ w with calls := w.calls + 1 }, none)
    else .error .bounds

def hashKey (key : BitVec 32) (nrSlots : Int) : Int := (key &&& BitVec.ofInt 32 (nrSlots - 1)).toInt

/-- What `hash_table_insert` is to its callers: the table afterwards and the
value returned. -/
abbrev Insert (δ : Type) := World δ → BitVec 32 → δ → Outcome (World δ × Int)

/-- Re-inserting one old slot's pairs. -/
def reinsertSlot (insert : Insert δ) (slt : Slot δ) (w : World δ) : Outcome (World δ) :=
  forUp (fun j w => do
    let hooks ← deref slt.chainHooks
    let ch ← load hooks j
    let (w, _) ← insert w ch.key ch.data
    .ok w) slt.nextChainHook.toNat 0 w

/-- One turn of the loop over the old slots. Its bound is read from the table
anew, and an insert in between may have doubled it again. -/
def expandTurn (insert : Insert δ) (oldSlts : List (Slot δ)) (s : Nat × World δ) :
    Outcome (Turn (Nat × World δ) (World δ)) :=
  let (i, w) := s
  if (i : Int) < w.ht.nrSlots.tdiv 2 then do
    let slt ← load oldSlts i
    let w ← reinsertSlot insert slt w
    .ok (.next (i + 1, w))
  else .ok (.done w)

/-- `hash_table_expand`, given the `hash_table_insert` it calls. -/
def hashTableExpand (mem : Nat → Malloc δ) (insert : Insert δ) (w : World δ) : Outcome (World δ × Int) := do
  let nr ← index (← int (w.ht.nrSlots * 2))
  match (mem w.calls).slots nr with
  | none => .ok ({ w with calls := w.calls + 1 }, -1)
  | some newSlts => do
    let w ← loop (expandTurn insert w.ht.slots) (w.ht.slots.length + 2) (0, ⟨⟨nr, newSlts⟩, w.calls + 1⟩)
    .ok (w, 0)

/-- The growth of a full slot's table, or of the slot. Neither result is
looked at. -/
def grow (mem : Nat → Malloc δ) (insert : Insert δ) (w : World δ) (i : Nat) : Outcome (World δ) := do
  let usage ← hashTableUsage w.ht
  if usage > 90 then do
    let (w, _) ← hashTableExpand mem insert w
    .ok w
  else do
    let (w, _) ← slotChainHooksExpand mem w i
    .ok w

/-- The pair put into the slot's next hook. -/
def putHook (w : World δ) (i : Nat) (slt : Slot δ) (key : BitVec 32) (data : δ) : Outcome (World δ) := do
  let next' ← int (slt.nextChainHook + 1)
  let hooks ← deref slt.chainHooks
  let hooks ← store hooks (← index slt.nextChainHook) ⟨key, data⟩
  .ok (w.setSlot i ⟨slt.nrChainHooks, next', some hooks⟩)

/-- `hash_table_insert`, with at most `depth` calls of it open at a time. -/
def hashTableInsert (mem : Nat → Malloc δ) : Nat → Insert δ
  | 0, _, _, _ => .error .fuel
  | depth + 1, w, key, data => do
    let i ← index (hashKey key w.ht.nrSlots)
    let slt ← load w.ht.slots i
    if slt.nextChainHook = slt.nrChainHooks then do
      let w ← grow mem (hashTableInsert mem depth) w i
      let (w, _) ← hashTableInsert mem depth w key data
      .ok (w, 0)
    else do
      let w ← putHook w i slt key data
      .ok (w, 0)

def insertAll (mem : Nat → Malloc δ) (depth : Nat) : World δ → List (ChainHook δ) → Outcome (World δ)
  | w, [] => .ok w
  | w, p :: ps => do
    let (w, _) ← hashTableInsert mem depth w p.key p.data
    insertAll mem depth w ps

/-- A table made and filled. -/
def run (mem : Nat → Malloc δ) (depth n m : Nat) (pairs : List (ChainHook δ)) : Outcome (World δ) := do
  let w ← hashTableCreate mem n m
  insertAll mem depth w pairs

/-! ## What is stored -/

/-- The pairs of a slot: its first `next_chain_hook` hooks. -/
def Slot.pairs (slt : Slot δ) : List (ChainHook δ) := (slt.chainHooks.getD []).take slt.nextChainHook.toNat

/-- The pairs of a table, slot by slot. -/
def HashTable.pairs (ht : HashTable δ) : List (ChainHook δ) := ht.slots.flatMap Slot.pairs

end SugarNSpice.MyHash
