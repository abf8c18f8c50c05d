/-
`gen_init_cpio.c`, the reading of the list: `main` takes it line by line with
`fgets` and keeps copies of the lines in a table that grows by doubling.

`fgets` is given `LINE_SIZE` bytes, so a longer line comes in pieces, and the
workers take each piece for a line. `Cut` says how a text falls apart.
-/
import SugarNSpice.CpioList
import SugarNSpice.Loops

namespace SugarNSpice.Cpio

open CLang

/-! ## `fgets` -/

/-- Up to `n` bytes, or a newline: what is read, and what is left. -/
def readUpTo : Nat → List Byte → List Byte × List Byte
  | 0, s => ([], s)
  | _ + 1, [] => ([], [])
  | n + 1, c :: s => if c = 10 then ([c], s) else (readUpTo n s).map (c :: ·) id

/-- `fgets` into `size` bytes; none at the end of the text. -/
def fgets (size : Nat) (text : List Byte) : Option (List Byte × List Byte) :=
  if text = [] then none else some (readUpTo (size - 1) text)

def strdup (s : List Byte) : List Byte := s.takeWhile (· ≠ 0)

def lineSize : Nat := 2 * pathMax + 50

/-! ## The table -/

/-- `struct file_table`. A cell is a pointer to a line. -/
structure FileTable where
  nrItems : Nat
  size : Nat
  table : Option (List (List Byte))

/-- What the allocator does: for the table, for its growth, and for the copy of
a line, by how many lines there are. -/
structure Memory where
  first : Alloc (List Byte)
  grow : Nat → Alloc (List Byte)
  dup : Nat → Bool

/-- Nothing fails. -/
structure Memory.Plenty (mem : Memory) : Prop where
  first : mem.first.ok = true
  grow : ∀ k, (mem.grow k).ok = true
  dup : ∀ k, mem.dup k = true

/-- The table is doubled when it is full; none if `realloc` fails. -/
def growTable (mem : Memory) (t : FileTable) : Outcome (Option FileTable) := do
  if t.nrItems = t.size then
    let cells ← deref t.table
    match (mem.grow t.nrItems).realloc cells (t.size * 2) with
    | none => .ok none
    | some cells => do
      let size ← nat (t.size * 2)
      .ok (some { t with size, table := some cells })
  else .ok (some t)

/-- The loop's body. It leaves with the table at the end of the text, and with
none for `return -1`. -/
def tableTurn (mem : Memory) (s : List Byte × FileTable) :
    Outcome (Turn (List Byte × FileTable) (Option FileTable)) :=
  match fgets lineSize s.1 with
  | none => .ok (.done (some s.2))
  | some (line, text) => do
    match ← growTable mem s.2 with
    | none => .ok (.done none)
    | some t =>
      if mem.dup t.nrItems then do
        let cells ← deref t.table
        let cells ← store cells t.nrItems (strdup line)
        let nrItems ← nat (t.nrItems + 1)
        .ok (.next (text, { t with nrItems, table := some cells }))
      else .ok (.done none)

/-- The table of a text. A turn reads at least one byte. -/
def readTable (mem : Memory) (text : List Byte) : Outcome (Option FileTable) :=
  loop (tableTurn mem) (text.length + 1) (text, ⟨0, 4096, mem.first.malloc 4096⟩)

def FileTable.lines (t : FileTable) : List (List Byte) := (t.table.getD []).take t.nrItems

/-! ## Pieces -/

/-- How a text comes apart where `size` bytes are given: a line with its
newline if they fit, with the NUL; else `size - 1` bytes of it; and at the end
what there is without a newline. -/
inductive Cut (size : Nat) : List Byte → List (List Byte) → Prop
  | nil : Cut size [] []
  | line {l text ps} : 10 ∉ l → l.length + 1 ≤ size - 1 → Cut size text ps →
      Cut size (l ++ 10 :: text) ((l ++ [10]) :: ps)
  | full {l text ps} : 10 ∉ l → l.length = size - 1 → Cut size text ps → Cut size (l ++ text) (l :: ps)
  | last {l} : l ≠ [] → 10 ∉ l → l.length < size - 1 → Cut size l [l]

end SugarNSpice.Cpio
