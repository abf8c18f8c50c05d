/-
`do_mallocs`, which `test_clone.c`, `test_fork.c` and `test_fork_pthread.c`
share: a table of pages that each call maps anew and in part gives back.

`xalloc` maps a page whatever size it is asked for, and `xfree` gives back as
many bytes as the table says, so a page whose random size was 0 is given back
with a length of 0. `munmap` refuses that, no one looks at its result, and the
page stays mapped (`leaked`). A call that cannot map a page returns in the
middle of the table.

What is random, and which calls of `mmap` fail, is in `Choices`; the kernel
maps a page that is not mapped. The table comes from `malloc` and the first
call reads it as it is: a pointer there that is not null is handed to `munmap`,
whatever it leads to, so the results are for memory with null pointers.
-/
import SugarNSpice.Loops
import Mathlib.Data.List.Perm.Basic

namespace SugarNSpice.TestClone

open CLang

def pageSz : Nat := 4096

/-- `struct alloc_info`; an address is a page. -/
structure AllocInfo where
  addr : Option Nat
  size : Nat
  deriving DecidableEq, Repr

/-- The table, the pages that are mapped, and the calls of `xfree` so far. -/
structure World where
  ptrs : List AllocInfo
  mapped : List Nat
  freed : List (Nat × Nat)

/-- Where `mmap` puts a page. -/
structure Kernel where
  page : List Nat → Nat
  fresh : ∀ mapped, page mapped ∉ mapped

/-- What is left to chance in one call, by the index in the table. -/
structure Choices where
  size : Nat → Nat
  size_le : ∀ i, size i ≤ pageSz
  fails : Nat → Bool
  drops : Nat → Bool

/-- `munmap` of a page: a length of 0 is an error. -/
def munmap (mapped : List Nat) (page size : Nat) : List Nat := if size = 0 then mapped else mapped.erase page

def xfree (w : World) (page size : Nat) : World :=
  { w with mapped := munmap w.mapped page size, freed := w.freed ++ [(page, size)] }

/-- `xfree(ptr->addr, ptr->size)` for an address that is not null. -/
def release (w : World) (ptr : AllocInfo) : World := ptr.addr.elim w fun page => xfree w page ptr.size

/-- `memset(ptr->addr, 'z', ptr->size)`. -/
def memset (w : World) (page size : Nat) : Outcome World :=
  if page ∈ w.mapped ∧ size ≤ pageSz then .ok w else .error .bounds

/-- The first loop from `i` on, and whether it has come to its end. -/
def fill (k : Kernel) (c : Choices) : (n i : Nat) → World → Outcome (World × Bool)
  | 0, _, w => .ok (w, true)
  | n + 1, i, w => do
    let ptr ← load w.ptrs i
    let w := release w ptr
    if c.fails i then do
      let ptrs ← store w.ptrs i { ptr with addr := none }
      .ok ({ w with ptrs }, false)
    else do
      let page := k.page w.mapped
      let ptrs ← store w.ptrs i ⟨some page, c.size i⟩
      let w ← memset { w with ptrs, mapped := page :: w.mapped } page (c.size i)
      fill k c n (i + 1) w

/-- The second loop's body. The first has left no null pointer by then. -/
def drop (c : Choices) (i : Nat) (w : World) : Outcome World :=
  if c.drops i then do
    let ptr ← load w.ptrs i
    let w := release w ptr
    let ptrs ← store w.ptrs i ⟨none, 0⟩
    .ok { w with ptrs }
  else .ok w

/-- `do_mallocs`, with as many entries as the table has for `malloc_cnt`. -/
def doMallocs (k : Kernel) (w : World) (c : Choices) : Outcome World := do
  let (w, through) ← fill k c w.ptrs.length 0 w
  if through then forUp (drop c) w.ptrs.length 0 w else .ok w

def calls (k : Kernel) (w : World) : List Choices → Outcome World
  | [] => .ok w
  | c :: cs => do calls k (← doMallocs k w c) cs

/-- The program when it comes to its calls, with `ptrs` in the memory it got
for the table. -/
def start (ptrs : List AllocInfo) : World := ⟨ptrs, [], []⟩

/-! ## The ledger -/

/-- The pages in the table. -/
def live (ptrs : List AllocInfo) : List Nat := ptrs.filterMap AllocInfo.addr

/-- The pages `xfree` was called for with a size of 0. -/
def leaked (freed : List (Nat × Nat)) : List Nat := (freed.filter (·.2 = 0)).map Prod.fst

/-- The mapped pages are those in the table and the leaked ones, each once. -/
structure Ledger (w : World) : Prop where
  mapped : w.mapped.Perm (live w.ptrs ++ leaked w.freed)
  nodup : w.mapped.Nodup

/-- The same with the entry at `i` left out, between its release and its next
page. -/
structure Apart (i : Nat) (w : World) : Prop where
  mapped : w.mapped.Perm (live (w.ptrs.eraseIdx i) ++ leaked w.freed)
  nodup : w.mapped.Nodup

theorem live_perm {ptrs : List AllocInfo} {i : Nat} {ptr : AllocInfo} (h : ptrs[i]? = some ptr) :
    (live ptrs).Perm (ptr.addr.toList ++ live (ptrs.eraseIdx i)) := by
  induction ptrs generalizing i with
  | nil => simp at h
  | cons x ptrs ih =>
    cases i with
    | zero =>
      cases h
      cases hx : ptr.addr <;> simp [live, hx]
    | succ i =>
      have hperm := ih h
      cases hx : x.addr with
      | none => simpa [live, hx] using hperm
      | some page =>
        simp only [live, List.filterMap_cons, hx, List.eraseIdx_cons_succ] at hperm ⊢
        exact (hperm.cons page).trans List.perm_middle.symm

theorem Apart.put {w : World} {i page : Nat} (h : Apart i w) (hi : i < w.ptrs.length) (hp : page ∉ w.mapped) (size : Nat) :
    Ledger { w with ptrs := w.ptrs.set i ⟨some page, size⟩, mapped := page :: w.mapped } := by
  refine ⟨?_, List.nodup_cons.2 ⟨hp, h.nodup⟩⟩
  have hset : (w.ptrs.set i ⟨some page, size⟩)[i]? = some ⟨some page, size⟩ := List.getElem?_set_self hi
  have hlive := live_perm hset
  rw [List.eraseIdx_set_eq] at hlive
  exact (h.mapped.cons page).trans (hlive.symm.append_right _)

theorem Apart.clear {w : World} {i : Nat} (h : Apart i w) (hi : i < w.ptrs.length) (size : Nat) :
    Ledger { w with ptrs := w.ptrs.set i ⟨none, size⟩ } := by
  refine ⟨?_, h.nodup⟩
  have hset : (w.ptrs.set i ⟨none, size⟩)[i]? = some ⟨none, size⟩ := List.getElem?_set_self hi
  have hlive := live_perm hset
  rw [List.eraseIdx_set_eq] at hlive
  exact h.mapped.trans (hlive.symm.append_right _)

end SugarNSpice.TestClone
