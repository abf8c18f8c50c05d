/-
What one worker's records add up to: an archive that reads back as the entries
it was asked for.

A worker writes entries and now and then hands what it has written to stdout,
which rewinds its file and sets `offset` to 0; at the end come the rest and
the trailer. An entry's records are those of the newc format, whatever was
written before (`Entry.lays`), so a reader gets what the list said
(`Entry.contents`). That a dump can fail for its size is another matter and
not part of this.
-/
import SugarNSpice.CpioFacts
import SugarNSpice.Newc

namespace SugarNSpice.Cpio

/-! ## Archives -/

/-- What a worker does with its file: an entry's function, with the number
`get_ino` returns to it, or a dump. -/
inductive Op where
  | emit (ino : BitVec 32) (e : Entry)
  | dump

/-- One of them, on the worker's state and the bytes it has handed on. -/
def Op.apply (mtime : BitVec 64) (x : MyState × List Byte) : Op → MyState × List Byte
  | .emit ino e => (e.emit mtime ino x.1, x.2)
  | .dump => (⟨0, x.1.fp.rewind⟩, x.2 ++ x.1.fp.written)

/-- The worker's file and the bytes handed on, after all of them. -/
def work (mtime : BitVec 64) (ops : List Op) : MyState × List Byte := ops.foldl (Op.apply mtime) (⟨0, .empty⟩, [])

/-- The archive: what has been handed on, the rest, and the trailer. -/
def archive (mtime : BitVec 64) (ops : List Op) : List Byte :=
  (work mtime ops).2 ++ (work mtime ops).1.fp.written ++ (cpioTrailer ⟨0, .empty⟩).fp.written

/-! ## What a reader is to get -/

/-- The records of a file's links, the data with the last. -/
def linkContents (src : Source) (ino mode uid gid : BitVec 32) (nlinks : Nat) : List (List Byte) → List Newc.Record
  | [] => []
  | name :: names =>
    ⟨ino.toNat, mode.toNat, uid.toNat, gid.toNat, nlinks, src.mtime.toNat, 3, 1, 0, 0, skipSlash name,
      if names.isEmpty then src.data else []⟩ :: linkContents src ino mode uid gid nlinks names

/-- The records of an entry: its name without a leading slash, its mode with
the bits of its kind, its owner and numbers, and its target or data. -/
def Entry.contents (mtime : BitVec 64) (ino : BitVec 32) : Entry → List Newc.Record
  | .slink name target mode uid gid =>
    [⟨ino.toNat, (0xA000 ||| mode).toNat, uid.toNat, gid.toNat, 1, mtime.toNat, 3, 1, 0, 0, skipSlash name,
      target ++ [0]⟩]
  | .generic name mode uid gid =>
    [⟨ino.toNat, mode.toNat, uid.toNat, gid.toNat, 2, mtime.toNat, 3, 1, 0, 0, skipSlash name, []⟩]
  | .nod name mode uid gid devType maj min =>
    [⟨ino.toNat, (if devType = 98 then mode ||| 0x6000 else mode ||| 0x2000).toNat, uid.toNat, gid.toNat, 1,
      mtime.toNat, 3, 1, maj.toNat, min.toNat, skipSlash name, []⟩]
  | .file src names mode uid gid => linkContents src ino (mode ||| 0x8000) uid gid names.length names

def Op.contents (mtime : BitVec 64) : Op → List Newc.Record
  | .emit ino e => e.contents mtime ino
  | .dump => []

def trailer : Newc.Record := ⟨0, 0, 0, 0, 1, 0, 0, 0, 0, 0, Newc.trailerName, []⟩

/-- A name: a string, of a length that an `unsigned int` counts with its NUL,
and not the trailer's. -/
structure IsName (name : List Byte) : Prop where
  nulFree : 0 ∉ name
  length : name.length + 1 < 2 ^ 32
  notTrailer : skipSlash name ≠ Newc.trailerName

/-- What the functions are called with: names, lengths that their types count,
and for a file a time of 32 bits. -/
def Entry.Fits : Entry → Prop
  | .slink name target _ _ _ => IsName name ∧ target.length + 1 < 2 ^ 32
  | .generic name _ _ _ => IsName name
  | .nod name _ _ _ _ _ _ => IsName name
  | .file src names _ _ _ =>
    (∀ name ∈ names, IsName name) ∧ names.length < 2 ^ 32 ∧ src.mtime.toNat < 2 ^ 32 ∧ src.data.length < 2 ^ 32

/-- An operation with an entry that fits, or a dump. -/
def Op.Fits : Op → Prop
  | .emit _ e => e.Fits
  | .dump => True

end SugarNSpice.Cpio
