/-
`fs_slammer.c`: threads that write pages to files of their own and add up what
they wrote in `total_bytes_written`.

A thread's step is a system call's return or an update of the total, which is
taken to be atomic (the source leaves it to chance). `int`s are 32 bits and
wrap. A call that fails and a cancellation both end the thread. The raw
readers, which count in a variable of their own, and what is in the files are
left out.
-/
import SugarNSpice.Processes

namespace SugarNSpice.FsSlammer

open Processes

/-- Where a thread is in `slam_junk`, with the locals it still needs. -/
inductive Pc where
  /-- At the top of the outer loop, before the files are opened. -/
  | top
  /-- At `while(pages--)`. -/
  | pages (pages bytesWrote : BitVec 32)
  /-- Before the `read` of a page. -/
  | read (pages bytesWrote : BitVec 32)
  /-- Before the `write` of the `n` bytes that were read. -/
  | write (pages bytesWrote : BitVec 32) (n : Nat)
  /-- The `write` has returned `ret`. -/
  | update (pages bytesWrote : BitVec 32) (ret : Nat)
  /-- The pass is over, before `pthread_testcancel`. -/
  | written
  | exit
  deriving DecidableEq, Repr

/-- A `write` that returned `ret` was added to the totals. -/
inductive Event where
  | updated (ret : Nat)
  deriving DecidableEq, Repr

/-- `sizeof(buff)`. -/
def buffSize : Nat := 4096

variable {P : Type}

/-- `slam_junk`, on `total_bytes_written`. -/
inductive slamJunk (maxPages : BitVec 32) : Program P (BitVec 64) Pc Event
  | openFails {p total} : slamJunk maxPages p total .top none total .exit
  | opens {p total} : slamJunk maxPages p total .top none total (.pages maxPages 0)
  | page {p total pages bytesWrote} : pages ≠ 0 →
    slamJunk maxPages p total (.pages pages bytesWrote) none total (.read (pages - 1) bytesWrote)
  | lastPage {p total bytesWrote} : slamJunk maxPages p total (.pages 0 bytesWrote) none total .written
  | readFails {p total pages bytesWrote} : slamJunk maxPages p total (.read pages bytesWrote) none total .exit
  | reads {p total pages bytesWrote n} : n ≤ buffSize →
    slamJunk maxPages p total (.read pages bytesWrote) none total (.write pages bytesWrote n)
  | writeFails {p total pages bytesWrote n} : slamJunk maxPages p total (.write pages bytesWrote n) none total .exit
  | writes {p total pages bytesWrote n ret} : ret ≤ n →
    slamJunk maxPages p total (.write pages bytesWrote n) none total (.update pages bytesWrote ret)
  | update {p total pages bytesWrote ret} :
    slamJunk maxPages p total (.update pages bytesWrote ret) (some (.updated ret))
      (total + (bytesWrote + BitVec.ofNat 32 ret).signExtend 64) (.pages pages (bytesWrote + BitVec.ofNat 32 ret))
  | again {p total} : slamJunk maxPages p total .written none total .top
  | cancelled {p total} : slamJunk maxPages p total .written none total .exit

/-- The threads have started, and written nothing. -/
def started : State P (BitVec 64) Pc := ⟨0, fun _ => .top⟩

end SugarNSpice.FsSlammer
