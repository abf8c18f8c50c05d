/-
What a worker's `offset` counts.

Every function that writes adds to `offset` what it has written, but for
`push_hdr`, which adds 110 whatever the header's length; and a dump sets it to
0, also when `write_to_stdout` has failed because the position does not fit
its `int`. So `offset` is the number of bytes written since the last
successful dump just when every header has 110 bytes and the bytes between
two dumps are fewer than `2^31` (`offset_counts_iff`).
-/
import SugarNSpice.CLang
import SugarNSpice.CpioFacts
import Mathlib.Data.List.Induction
import Mathlib.Data.BitVec

namespace SugarNSpice.Cpio

/-! ## A worker's calls -/

/-- A worker's call: an entry's function, with the number `get_ino` returns to
it, or `try_dump_to_stdout`, which may find the lock taken. -/
inductive Call where
  | emit (ino : BitVec 32) (e : Entry)
  | tryDump (busy : Bool)

/-- A worker's state, and the number of bytes written to its file since the
last dump that succeeded. -/
structure Tally where
  st : MyState
  since : Nat

/-- One call. A dump succeeds if `write_to_stdout` does not return a negative
number; what it does to the state does not depend on that. -/
def Call.apply (mtime : BitVec 64) (x : Tally) : Call → Tally
  | .emit ino e => ⟨e.emit mtime ino x.st, x.since + ((e.emit mtime ino x.st).fp.pos - x.st.fp.pos)⟩
  | .tryDump true => x
  | .tryDump false =>
    ⟨⟨0, x.st.fp.rewind⟩, if (BitVec.ofNat 32 x.st.fp.pos).toInt < 0 then x.since else 0⟩

/-- After all of them. -/
def tally (mtime : BitVec 64) (calls : List Call) : Tally := calls.foldl (Call.apply mtime) ⟨⟨0, .empty⟩, 0⟩

def linkHeaders (src : Source) (ino mode uid gid nlinks : BitVec 32) : List (List Byte) → List Header
  | [] => []
  | name :: names =>
    ⟨ino, mode, uid, gid, nlinks, src.mtime, BitVec.ofNat 64 (if names.isEmpty then src.data else []).length, 3, 1, 0, 0,
      strSize (skipSlash name)⟩ :: linkHeaders src ino mode uid gid nlinks names

/-- The headers an entry's function gives to `push_hdr`. -/
def Entry.headers (mtime : BitVec 64) (ino : BitVec 32) : Entry → List Header
  | .slink name target mode uid gid =>
    [⟨ino, 0xA000 ||| mode, uid, gid, 1, mtime, (strSize target).setWidth 64, 3, 1, 0, 0, strSize (skipSlash name)⟩]
  | .generic name mode uid gid => [⟨ino, mode, uid, gid, 2, mtime, 0, 3, 1, 0, 0, strSize (skipSlash name)⟩]
  | .nod name mode uid gid devType maj min =>
    [⟨ino, if devType = 98 then mode ||| 0x6000 else mode ||| 0x2000, uid, gid, 1, mtime, 0, 3, 1, maj, min,
      strSize (skipSlash name)⟩]
  | .file src names mode uid gid =>
    linkHeaders src ino (mode ||| 0x8000) uid gid (BitVec.ofNat 32 names.length) names

/-- `offset` counts the bytes at every point, every header has 110 bytes, and
`offset` is a multiple of 4 after every entry. -/
structure Counts (mtime : BitVec 64) (calls : List Call) : Prop where
  offset : ∀ pre, pre <+: calls → (tally mtime pre).st.offset.toInt = (tally mtime pre).since
  headers : ∀ ino e, .emit ino e ∈ calls → ∀ h ∈ e.headers mtime ino, h.bytes.length = 110
  aligned : ∀ pre ino e, pre ++ [.emit ino e] <+: calls → (tally mtime (pre ++ [.emit ino e])).st.offset.toInt % 4 = 0

/-! ## When they do -/

/-- The times and sizes in an entry's headers have eight digits. -/
def Entry.Narrow (mtime : BitVec 64) : Entry → Prop
  | .slink _ _ _ _ _ => mtime.toNat < 2 ^ 32
  | .generic _ _ _ _ => mtime.toNat < 2 ^ 32
  | .nod _ _ _ _ _ _ _ => mtime.toNat < 2 ^ 32
  | .file src names _ _ _ => names ≠ [] → src.mtime.toNat < 2 ^ 32 ∧ src.data.length < 2 ^ 32

/-- A size that `fstat` can report. -/
def Entry.Statable : Entry → Prop
  | .file src _ _ _ _ => src.data.length < 2 ^ 63
  | _ => True

/-- The bytes of the entries since the last dump that got the lock. -/
def sinceDump (mtime : BitVec 64) (calls : List Call) : Nat :=
  calls.foldl (fun k call =>
    match call with
    | .emit _ e => k + e.size mtime
    | .tryDump busy => if busy then k else 0) 0

/-- All fields have eight digits, and there are never `2^31` bytes or more
between two dumps. -/
structure InRange (mtime : BitVec 64) (calls : List Call) : Prop where
  narrow : ∀ ino e, .emit ino e ∈ calls → e.Narrow mtime
  short : ∀ pre, pre <+: calls → sinceDump mtime pre < 2 ^ 31

theorem Entry.headers_records (mtime : BitVec 64) (ino : BitVec 32) (e : Entry) :
    List.Forall₂ (fun h r => h.bytes <+: r) (e.headers mtime ino) (e.records mtime ino) := by
  have hhead : ∀ (h : Header) (name body : List Byte), h.bytes <+: recordHead h name ++ body := by
    intro h name body
    rw [recordHead, List.append_assoc, List.append_assoc]
    exact List.prefix_append _ _
  cases e with
  | slink name target mode uid gid => exact .cons (hhead _ _ _) .nil
  | generic name mode uid gid => exact .cons (by simpa using hhead _ (skipSlash name) []) .nil
  | nod name mode uid gid devType maj min => exact .cons (by simpa using hhead _ (skipSlash name) []) .nil
  | file src names mode uid gid =>
    rw [Entry.headers, Entry.records]
    generalize BitVec.ofNat 32 names.length = nlinks
    induction names with
    | nil => exact .nil
    | cons name names ih => exact .cons (hhead _ _ _) ih

theorem toNat_ofNat_lt_iff {k : Nat} (hk : k < 2 ^ 63) : (BitVec.ofNat 64 k).toNat < 2 ^ 32 ↔ k < 2 ^ 32 := by
  rw [BitVec.toNat_ofNat, Nat.mod_eq_of_lt (by omega)]

theorem linkHeaders_narrow_iff {src : Source} (hsize : src.data.length < 2 ^ 63) (ino mode uid gid nlinks : BitVec 32)
    (names : List (List Byte)) :
    (∀ h ∈ linkHeaders src ino mode uid gid nlinks names, h.bytes.length = 110) ↔
      (names ≠ [] → src.mtime.toNat < 2 ^ 32 ∧ src.data.length < 2 ^ 32) := by
  induction names with
  | nil => simp [linkHeaders]
  | cons name names ih =>
    rw [linkHeaders, List.forall_mem_cons, ih, Header.length_eq_iff]
    cases names with
    | nil =>
      simp only [List.isEmpty_nil, if_true, toNat_ofNat_lt_iff hsize]
      exact ⟨fun h _ => h.1, fun h => ⟨h (List.cons_ne_nil _ _), fun hnil => absurd rfl hnil⟩⟩
    | cons name' names =>
      have hother : (BitVec.ofNat 64 0).toNat < 2 ^ 32 := by decide
      simp only [List.isEmpty_cons, Bool.false_eq_true, if_false, List.length_nil, hother, and_true]
      exact ⟨fun h _ => h.2 (List.cons_ne_nil _ _), fun h => ⟨(h (List.cons_ne_nil _ _)).1,
        fun _ => h (List.cons_ne_nil _ _)⟩⟩

theorem Entry.narrow_iff {mtime : BitVec 64} {e : Entry} (he : e.Statable) (ino : BitVec 32) :
    (∀ h ∈ e.headers mtime ino, h.bytes.length = 110) ↔ e.Narrow mtime := by
  have hzero : (0 : BitVec 64).toNat < 2 ^ 32 := by decide
  cases e with
  | slink name target mode uid gid =>
    have hsize : ((strSize target).setWidth 64).toNat < 2 ^ 32 := by
      rw [BitVec.toNat_setWidth, Nat.mod_eq_of_lt (Nat.lt_trans (strSize target).isLt (by decide))]
      exact (strSize target).isLt
    rw [Entry.headers, List.forall_mem_singleton, Header.length_eq_iff]
    exact and_iff_left hsize
  | generic name mode uid gid =>
    rw [Entry.headers, List.forall_mem_singleton, Header.length_eq_iff]
    exact and_iff_left hzero
  | nod name mode uid gid devType maj min =>
    rw [Entry.headers, List.forall_mem_singleton, Header.length_eq_iff]
    exact and_iff_left hzero
  | file src names mode uid gid => exact linkHeaders_narrow_iff he ino _ uid gid _ names

/-! ## Counting -/

/-- `f` adds to `offset` the number of bytes it writes. -/
def Counting (f : MyState → MyState) : Prop :=
  ∀ st, ∃ k, (f st).offset = st.offset + BitVec.ofNat 32 k ∧ (f st).fp.pos = st.fp.pos + k

theorem Counting.comp {f g : MyState → MyState} (hg : Counting g) (hf : Counting f) :
    Counting fun st => g (f st) := by
  intro st
  obtain ⟨k, hoff, hpos⟩ := hf st
  obtain ⟨k', hoff', hpos'⟩ := hg (f st)
  refine ⟨k + k', ?_, ?_⟩
  · rw [hoff', hoff, BitVec.ofNat_add, BitVec.add_assoc]
  · rw [hpos', hpos, Nat.add_assoc]

theorem counting_id : Counting fun st => st := fun st => ⟨0, by simp, rfl⟩

theorem put_counting {bs : List Byte} {k : Nat} (h : bs.length = k) : Counting fun st => st.put bs k :=
  fun st => ⟨k, rfl, by rw [← h]; rfl⟩

theorem pushString_counting (name : List Byte) : Counting (pushString name) :=
  put_counting (by rw [List.length_append, List.length_singleton])

theorem pushHdr_counting {s : List Byte} (h : s.length = 110) : Counting (pushHdr s) := put_counting h

theorem pushPadLoop_counting (n : Nat) : Counting (pushPadLoop n) := by
  induction n with
  | zero => exact counting_id
  | succ n ih =>
    intro st
    rw [pushPadLoop]
    split
    · exact ih.comp (put_counting rfl) st
    · exact counting_id st

theorem pushPad_counting : Counting pushPad := pushPadLoop_counting 3

theorem pushRestLoop_counting (n : Nat) (t : BitVec 32) : Counting (pushRestLoop n t) := by
  induction n generalizing t with
  | zero => exact counting_id
  | succ n ih =>
    intro st
    rw [pushRestLoop]
    split
    · exact (ih (t + 1)).comp (put_counting rfl) st
    · exact counting_id st

theorem pushRest_counting (name : List Byte) : Counting (pushRest name) :=
  (pushRestLoop_counting 3 _).comp (pushString_counting name)

theorem mkfileLoop_counting (src : Source) (ino mode uid gid nlinks : BitVec 32) {names : List (List Byte)}
    (h : ∀ h ∈ linkHeaders src ino mode uid gid nlinks names, h.bytes.length = 110) :
    Counting (mkfileLoop src ino mode uid gid nlinks names) := by
  induction names with
  | nil => exact counting_id
  | cons name names ih =>
    rw [linkHeaders, List.forall_mem_cons] at h
    refine (ih h.2).comp ?_
    intro st
    have hhead := pushPad_counting.comp ((pushString_counting (skipSlash name)).comp (pushHdr_counting h.1))
    unfold mkfileLink
    generalize (if names.isEmpty then src.data else []) = data at hhead
    simp only
    split
    · exact pushPad_counting.comp ((put_counting rfl).comp hhead) st
    · exact hhead st

/-- **An entry** with headers of 110 bytes counts what it writes. -/
theorem Entry.emit_counting {mtime : BitVec 64} {ino : BitVec 32} {e : Entry}
    (h : ∀ h ∈ e.headers mtime ino, h.bytes.length = 110) : Counting (e.emit mtime ino) := by
  cases e with
  | slink name target mode uid gid =>
    have hhdr := pushHdr_counting (h _ (List.mem_singleton_self _))
    exact pushPad_counting.comp ((pushString_counting target).comp (pushPad_counting.comp
      ((pushString_counting (skipSlash name)).comp hhdr)))
  | generic name mode uid gid =>
    exact (pushRest_counting (skipSlash name)).comp (pushHdr_counting (h _ (List.mem_singleton_self _)))
  | nod name mode uid gid devType maj min =>
    exact (pushRest_counting (skipSlash name)).comp (pushHdr_counting (h _ (List.mem_singleton_self _)))
  | file src names mode uid gid => exact mkfileLoop_counting src ino _ uid gid _ h

theorem Entry.emit_pos (mtime : BitVec 64) (ino : BitVec 32) (e : Entry) {st : MyState}
    (hst : st.offset.toNat % 4 = 0) : (e.emit mtime ino st).fp.pos = st.fp.pos + e.size mtime := by
  rw [← TmpFile.length_written, (e.emit_appends mtime ino st hst).1, List.length_append, TmpFile.length_written,
    Entry.length_group]

/-! ## Runs -/

theorem tally_concat (mtime : BitVec 64) (calls : List Call) (call : Call) :
    tally mtime (calls ++ [call]) = call.apply mtime (tally mtime calls) := by
  rw [tally, List.foldl_append]
  rfl

theorem sinceDump_concat (mtime : BitVec 64) (calls : List Call) (call : Call) :
    sinceDump mtime (calls ++ [call]) = match call with
      | .emit _ e => sinceDump mtime calls + e.size mtime
      | .tryDump busy => if busy then sinceDump mtime calls else 0 := by
  rw [sinceDump, List.foldl_append]
  rfl

/-- `offset` is a multiple of 4 between calls, whatever the headers. -/
theorem tally_aligned (mtime : BitVec 64) (calls : List Call) : (tally mtime calls).st.offset.toNat % 4 = 0 := by
  induction calls using List.reverseRecOn with
  | nil => rfl
  | append_singleton calls call ih =>
    rw [tally_concat]
    match call with
    | .emit ino e => exact (e.emit_appends mtime ino _ ih).2
    | .tryDump true => exact ih
    | .tryDump false => rfl

/-- The state when all headers have 110 bytes and no dump so far has failed. -/
theorem tally_spec {mtime : BitVec 64} (calls : List Call)
    (hhdr : ∀ ino e, .emit ino e ∈ calls → ∀ h ∈ e.headers mtime ino, h.bytes.length = 110)
    (hshort : ∀ pre call, pre ++ [call] <+: calls → sinceDump mtime pre < 2 ^ 31) :
    (tally mtime calls).since = sinceDump mtime calls ∧ (tally mtime calls).st.fp.pos = sinceDump mtime calls ∧
      (tally mtime calls).st.offset = BitVec.ofNat 32 (sinceDump mtime calls) := by
  induction calls using List.reverseRecOn with
  | nil => exact ⟨rfl, rfl, rfl⟩
  | append_singleton calls call ih =>
    obtain ⟨hsince, hpos, hoff⟩ := ih (fun ino e he => hhdr ino e (List.mem_append_left _ he))
      (fun pre c hpre => hshort pre c (hpre.trans (List.prefix_append _ _)))
    rw [tally_concat, sinceDump_concat]
    match call with
    | .emit ino e =>
      have hpos' := e.emit_pos mtime ino (tally_aligned mtime calls)
      obtain ⟨k, hoff', hk⟩ := Entry.emit_counting (hhdr ino e (by simp)) (tally mtime calls).st
      obtain rfl : k = e.size mtime := by omega
      refine ⟨?_, ?_, ?_⟩
      · simp only [Call.apply]
        omega
      · simp only [Call.apply]
        omega
      · simp only [Call.apply, hoff', hoff, BitVec.ofNat_add]
    | .tryDump true => exact ⟨hsince, hpos, hoff⟩
    | .tryDump false =>
      have hlt := hshort calls _ List.prefix_rfl
      have hnonneg : ¬ (BitVec.ofNat 32 (tally mtime calls).st.fp.pos).toInt < 0 := by
        rw [hpos, CLang.toInt_ofNat_of_lt (by omega)]
        omega
      exact ⟨if_neg hnonneg, rfl, rfl⟩

/-- Counting at every point, the bytes between two dumps stay below `2^31`: an
`int` has no more. -/
theorem Counts.short {mtime : BitVec 64} {calls : List Call} (h : Counts mtime calls) :
    ∀ pre, pre <+: calls → sinceDump mtime pre < 2 ^ 31 := by
  intro pre
  -- By induction on the length: up to a call no dump has failed.
  induction hlen : pre.length using Nat.strong_induction_on generalizing pre with
  | _ len ih =>
    intro hpre
    obtain ⟨hsince, -, -⟩ := tally_spec pre (fun ino e he => h.headers ino e (hpre.subset he))
      fun pre' call hpre' => ih pre'.length
        (by have := hpre'.length_le; rw [List.length_append, List.length_singleton] at this; omega) pre' rfl
        (((List.prefix_append pre' [call]).trans hpre').trans hpre)
    have hoff := h.offset pre hpre
    have hlt : (tally mtime pre).st.offset.toInt < 2 ^ 31 := BitVec.toInt_lt
    omega

/-- **When a worker's `offset` counts its bytes.** For every timestamp, every
file that `fstat` can report and every sequence of a worker's calls: `offset`
is the number of bytes written since the last successful dump, every header
has 110 bytes and `offset` is a multiple of 4 after each entry, if and only if
all times and sizes in the headers are below `2^32` and the records between
two dumps add up to fewer than `2^31` bytes. -/
theorem offset_counts_iff {mtime : BitVec 64} {calls : List Call} (hstat : ∀ ino e, .emit ino e ∈ calls → e.Statable) :
    Counts mtime calls ↔ InRange mtime calls := by
  constructor
  · intro h
    refine ⟨fun ino e he => ?_, h.short⟩
    exact (Entry.narrow_iff (hstat ino e he) ino).1 (h.headers ino e he)
  · intro h
    have hhdr : ∀ ino e, .emit ino e ∈ calls → ∀ h ∈ e.headers mtime ino, h.bytes.length = 110 :=
      fun ino e he => (Entry.narrow_iff (hstat ino e he) ino).2 (h.narrow ino e he)
    refine ⟨fun pre hpre => ?_, hhdr, fun pre ino e hpre => ?_⟩
    · obtain ⟨hsince, -, hoff⟩ := tally_spec pre (fun ino e he => hhdr ino e (hpre.subset he))
        fun pre' call hpre' => h.short pre' (((List.prefix_append pre' [call]).trans hpre').trans hpre)
      rw [hsince, hoff, CLang.toInt_ofNat_of_lt (h.short pre hpre)]
    · have haligned := tally_aligned mtime (pre ++ [.emit ino e])
      rw [BitVec.toInt_eq_toNat_cond]
      split <;> omega

/-- A directory, a dump that finds the lock taken, a file of five bytes, and a
dump. -/
def sampleCalls : List Call :=
  [.emit 721 (.generic [97] 0x41ED 0 0), .tryDump true, .emit 722 (.file ⟨[1, 2, 3, 4, 5], 7⟩ [[98]] 0x1A4 0 0),
    .tryDump false]

theorem offset_counts_iff_sample : Counts 0 sampleCalls := by
  refine (offset_counts_iff fun ino e he => ?_).2 ⟨fun ino e he => ?_, fun pre hpre => ?_⟩
  · simp only [sampleCalls, List.mem_cons, Call.emit.injEq, reduceCtorEq, List.not_mem_nil, or_false, false_or] at he
    rcases he with ⟨-, rfl⟩ | ⟨-, rfl⟩
    · trivial
    · exact Nat.lt_of_lt_of_le (by decide) (Nat.pow_le_pow_right (by decide) (by decide) : 2 ^ 3 ≤ 2 ^ 63)
  · simp only [sampleCalls, List.mem_cons, Call.emit.injEq, reduceCtorEq, List.not_mem_nil, or_false, false_or] at he
    rcases he with ⟨-, rfl⟩ | ⟨-, rfl⟩
    · exact Nat.two_pow_pos 32
    · exact fun _ => ⟨by decide, by decide⟩
  · have hdir : Entry.size 0 (.generic [97] 0x41ED 0 0) = 112 := headSize_of_lt (by decide) (by decide) _
    have hfile : Entry.size 0 (.file ⟨[1, 2, 3, 4, 5], 7⟩ [[98]] 0x1A4 0 0) = 120 :=
      linksSize_of_lt (by decide) (by decide) (List.cons_ne_nil _ _)
    rw [List.prefix_iff_eq_take.1 hpre]
    match pre.length with
    | 0 => decide
    | 1 | 2 =>
      simp only [sampleCalls, sinceDump, List.take_succ_cons, List.take_zero, List.foldl_cons, List.foldl_nil, hdir]
      decide
    | 3 =>
      simp only [sampleCalls, sinceDump, List.take_succ_cons, List.take_zero, List.foldl_cons, List.foldl_nil, hdir,
        hfile]
      decide
    | _ + 4 =>
      simp only [sampleCalls, sinceDump, List.take_succ_cons, List.take_nil, List.foldl_cons, List.foldl_nil]
      decide

/-- With the timestamp `2^32` the header of a directory has 111 bytes, and
`offset` is one short. -/
theorem offset_miscounts : ¬ Counts (2 ^ 32) [.emit 721 (.generic [97] 0x41ED 0 0)] := by
  intro h
  have hhdr := h.headers 721 _ (List.mem_singleton_self _) _ (List.mem_singleton_self _)
  rw [Header.length_eq_iff] at hhdr
  exact absurd hhdr.1 (by decide)

end SugarNSpice.Cpio
