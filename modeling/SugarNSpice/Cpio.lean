/-
`gen_init_cpio.c`, the records: what a worker writes to its temporary file
for an entry of the list.

A record is a header of hexadecimal fields, a name, and for links and files a
body, each padded with zero bytes. Two schemes pad: `push_rest` by the length
of the name, `push_pad` by the worker's running `offset`. `get_ino` is called
once for an entry; its result is a parameter here. `stdio` calls are taken to
succeed.
-/
import SugarNSpice.CLang
import Mathlib.Data.Nat.Log
import Mathlib.Algebra.Ring.Int.Defs
import Mathlib.Algebra.Ring.Nat

namespace SugarNSpice.Cpio

open CLang (ascii)

abbrev Byte := BitVec 8

/-! ## A worker's file -/

/-- A temporary file: its bytes, and the position in it. A dump rewinds it and
leaves the bytes. -/
structure TmpFile where
  data : List Byte
  pos : Nat
  le : pos ≤ data.length

/-- The file as it is created. -/
def TmpFile.empty : TmpFile := ⟨[], 0, Nat.le_refl 0⟩

/-- `fputs`, `fputc` and `fwrite`. -/
def TmpFile.write (f : TmpFile) (bs : List Byte) : TmpFile :=
  ⟨f.data.take f.pos ++ bs ++ f.data.drop (f.pos + bs.length), f.pos + bs.length, by
    have := f.le
    simp only [List.length_append, List.length_take, List.length_drop]
    omega⟩

def TmpFile.rewind (f : TmpFile) : TmpFile := ⟨f.data, 0, Nat.zero_le _⟩

/-- `struct my_state`, less the file's name. -/
structure MyState where
  offset : BitVec 32
  fp : TmpFile

/-- Bytes written, and `n` added to `offset`. -/
def MyState.put (st : MyState) (bs : List Byte) (n : Nat) : MyState :=
  ⟨st.offset + BitVec.ofNat 32 n, st.fp.write bs⟩

def pushString (name : List Byte) (st : MyState) : MyState := st.put (name ++ [0]) (name.length + 1)

/-- The loop of `push_pad`, which takes at most three turns. -/
def pushPadLoop : Nat → MyState → MyState
  | 0, st => st
  | n + 1, st => if st.offset &&& 3 ≠ 0 then pushPadLoop n (st.put [0] 1) else st

def pushPad (st : MyState) : MyState := pushPadLoop 3 st

/-- The loop of `push_rest`, on `tmp_ofs`. -/
def pushRestLoop : Nat → BitVec 32 → MyState → MyState
  | 0, _, st => st
  | n + 1, tmpOfs, st => if tmpOfs &&& 3 ≠ 0 then pushRestLoop n (tmpOfs + 1) (st.put [0] 1) else st

def pushRest (name : List Byte) (st : MyState) : MyState :=
  pushRestLoop 3 (BitVec.ofNat 32 (name.length + 1 + 110)) (st.put (name ++ [0]) (name.length + 1))

/-- `push_hdr`. It counts 110 bytes, whatever it writes. -/
def pushHdr (s : List Byte) (st : MyState) : MyState := st.put s 110

/-! ## Headers -/

/-- A digit of `%X`. -/
def hexDigit (n : Nat) : Byte := if n < 10 then BitVec.ofNat 8 (48 + n) else BitVec.ofNat 8 (55 + n)

/-- The last `width` digits of a number. -/
def hexFixed (width n : Nat) : List Byte := (List.range width).reverse.map fun i => hexDigit (n / 16 ^ i % 16)

/-- `%08X`, of an `unsigned int`. -/
def hexInt (v : BitVec 32) : List Byte := hexFixed 8 v.toNat

/-- `%08lX`, of a `long`: eight digits, or as many as it has. -/
def hexLong (v : BitVec 64) : List Byte := hexFixed (max 8 (Nat.log 16 v.toNat + 1)) v.toNat

/-- What a header is made from. `filesize` is a `long` in one of the formats
and an `unsigned int` in the others, with the same digits. -/
structure Header where
  ino : BitVec 32
  mode : BitVec 32
  uid : BitVec 32
  gid : BitVec 32
  nlink : BitVec 32
  mtime : BitVec 64
  filesize : BitVec 64
  major : BitVec 32
  minor : BitVec 32
  rmajor : BitVec 32
  rminor : BitVec 32
  namesize : BitVec 32

/-- The `sprintf` of a header. -/
def Header.bytes (h : Header) : List Byte :=
  ascii ['0', '7', '0', '7', '0', '1'] ++ hexInt h.ino ++ hexInt h.mode ++ hexLong (h.uid.setWidth 64) ++
    hexLong (h.gid.setWidth 64) ++ hexInt h.nlink ++ hexLong h.mtime ++ hexLong h.filesize ++ hexInt h.major ++
    hexInt h.minor ++ hexInt h.rmajor ++ hexInt h.rminor ++ hexInt h.namesize ++ hexInt 0

/-- `(unsigned)strlen(s) + 1`. -/
def strSize (s : List Byte) : BitVec 32 := BitVec.ofNat 32 (s.length + 1)

/-- A name without its leading slash. -/
def skipSlash (name : List Byte) : List Byte :=
  match name with
  | c :: cs => if c = 47 then cs else c :: cs
  | [] => []

/-! ## Records -/

def cpioMkslink (mtime : BitVec 64) (ino : BitVec 32) (name target : List Byte) (mode uid gid : BitVec 32)
    (st : MyState) : MyState :=
  let name := skipSlash name
  let hdr : Header := ⟨ino, 0xA000 ||| mode, uid, gid, 1, mtime, (strSize target).setWidth 64, 3, 1, 0, 0, strSize name⟩
  pushPad (pushString target (pushPad (pushString name (pushHdr hdr.bytes st))))

def cpioMkgeneric (mtime : BitVec 64) (ino : BitVec 32) (name : List Byte) (mode uid gid : BitVec 32) (st : MyState) :
    MyState :=
  let name := skipSlash name
  let hdr : Header := ⟨ino, mode, uid, gid, 2, mtime, 0, 3, 1, 0, 0, strSize name⟩
  pushRest name (pushHdr hdr.bytes st)

def cpioMknod (mtime : BitVec 64) (ino : BitVec 32) (name : List Byte) (mode uid gid : BitVec 32) (devType : Byte)
    (maj min : BitVec 32) (st : MyState) : MyState :=
  let mode := if devType = 98 then mode ||| 0x6000 else mode ||| 0x2000
  let name := skipSlash name
  let hdr : Header := ⟨ino, mode, uid, gid, 1, mtime, 0, 3, 1, maj, min, strSize name⟩
  pushRest name (pushHdr hdr.bytes st)

/-- A file the list names: its bytes and its time, as `fstat` and `read` give
them. -/
structure Source where
  data : List Byte
  mtime : BitVec 64

/-- The body of `cpio_mkfile`'s loop for one link. -/
def mkfileLink (src : Source) (ino mode uid gid nlinks : BitVec 32) (name : List Byte) (last : Bool) (st : MyState) :
    MyState :=
  let name := skipSlash name
  let data := if last then src.data else []
  let hdr : Header :=
    ⟨ino, mode, uid, gid, nlinks, src.mtime, BitVec.ofNat 64 data.length, 3, 1, 0, 0, strSize name⟩
  let st := pushPad (pushString name (pushHdr hdr.bytes st))
  if data.length ≠ 0 then pushPad (st.put data data.length) else st

/-- `cpio_mkfile`'s loop, over the names in its buffer; the data goes on the
last link. -/
def mkfileLoop (src : Source) (ino mode uid gid nlinks : BitVec 32) : List (List Byte) → MyState → MyState
  | [], st => st
  | name :: names, st =>
    mkfileLoop src ino mode uid gid nlinks names
      (mkfileLink src ino mode uid gid nlinks name names.isEmpty st)

/-- `cpio_mkfile`, once the file has been read. -/
def cpioMkfile (src : Source) (ino : BitVec 32) (names : List (List Byte)) (mode uid gid : BitVec 32) (st : MyState) :
    MyState :=
  mkfileLoop src ino (mode ||| 0x8000) uid gid (BitVec.ofNat 32 names.length) names st

/-- The loop of `cpio_trailer` that fills a block, at most 511 turns. -/
def trailerLoop : Nat → MyState → MyState
  | 0, st => st
  | n + 1, st => if st.offset.srem 512 ≠ 0 then trailerLoop n (st.put [0] 1) else st

def cpioTrailer (st : MyState) : MyState :=
  let name := ascii ['T', 'R', 'A', 'I', 'L', 'E', 'R', '!', '!', '!']
  let hdr : Header := ⟨0, 0, 0, 0, 1, 0, 0, 0, 0, 0, 0, strSize name⟩
  trailerLoop 511 (pushRest name (pushHdr hdr.bytes st))

/-! ## Entries -/

/-- What a line of the list asks for, with the file it names. -/
inductive Entry where
  | slink (name target : List Byte) (mode uid gid : BitVec 32)
  | generic (name : List Byte) (mode uid gid : BitVec 32)
  | nod (name : List Byte) (mode uid gid : BitVec 32) (devType : Byte) (maj min : BitVec 32)
  | file (src : Source) (names : List (List Byte)) (mode uid gid : BitVec 32)

/-- The records of an entry, written by the function for its kind. -/
def Entry.emit (mtime : BitVec 64) (ino : BitVec 32) : Entry → MyState → MyState
  | .slink name target mode uid gid => cpioMkslink mtime ino name target mode uid gid
  | .generic name mode uid gid => cpioMkgeneric mtime ino name mode uid gid
  | .nod name mode uid gid devType maj min => cpioMknod mtime ino name mode uid gid devType maj min
  | .file src names mode uid gid => cpioMkfile src ino names mode uid gid

end SugarNSpice.Cpio
