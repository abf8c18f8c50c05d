/-
The length of what is on stdout.

`main` sets its `offset` to 0 before `cpio_trailer`, so the loop there fills
the block of the trailer alone, and always with the same number of zeros. The
archive ends at a block only if the records before the trailer do.
-/
import SugarNSpice.CpioOffset
import SugarNSpice.GenInitCpioFacts

namespace SugarNSpice.Cpio

open CLang (ascii)

/-! ## The trailer -/

/-- The loop adds what is missing to 512. -/
theorem trailerLoop_pos {n k : Nat} {st : MyState} (hoff : st.offset = BitVec.ofNat 32 k) (hpos : 0 < k) (hle : k ≤ 512)
    (hn : 512 - k ≤ n) : (trailerLoop n st).fp.pos = st.fp.pos + (512 - k) := by
  induction n generalizing k st with
  | zero =>
    have hk : 512 - k = 0 := Nat.le_zero.1 hn
    rw [trailerLoop, hk, Nat.add_zero]
  | succ n ih =>
    have hint : st.offset.toInt = k := by rw [hoff, CLang.toInt_ofNat_of_lt (Nat.lt_of_le_of_lt hle (by decide))]
    have hblock : (512 : BitVec 32).toInt = 512 := by decide
    have hzero : (0 : BitVec 32).toInt = 0 := by decide
    have hrem : st.offset.srem 512 ≠ 0 ↔ k < 512 := by
      rw [← BitVec.toInt_ne, BitVec.toInt_srem, hint, hblock, hzero]
      rcases Nat.lt_or_eq_of_le hle with hlt | rfl
      · rw [Int.tmod_eq_of_lt (Int.natCast_nonneg k) (by omega)]
        omega
      · decide
    rw [trailerLoop]
    split
    next h =>
      have hlt := hrem.1 h
      have hnext : (st.put [0] 1).offset = BitVec.ofNat 32 (k + 1) := by
        rw [BitVec.ofNat_add, ← hoff]
        rfl
      have hput : (st.put [0] 1).fp.pos = st.fp.pos + 1 := rfl
      rw [ih hnext k.succ_pos hlt (by omega), hput]
      omega
    next h =>
      have hk : ¬ k < 512 := fun hlt => h (hrem.2 hlt)
      omega

/-- **The trailer** has 512 bytes with its zeros. -/
theorem length_trailer : (cpioTrailer ⟨0, .empty⟩).fp.written.length = 512 := by
  let name := ascii ['T', 'R', 'A', 'I', 'L', 'E', 'R', '!', '!', '!']
  let hdr : Header := ⟨0, 0, 0, 0, 1, 0, 0, 0, 0, 0, 0, strSize name⟩
  let st := pushRest name (pushHdr hdr.bytes ⟨0, .empty⟩)
  have hzero : (0 : BitVec 64).toNat < 2 ^ 32 := by decide
  have hhdr : hdr.bytes.length = 110 := hdr.length_eq_iff.2 ⟨hzero, hzero⟩
  obtain ⟨k, hoff, hpos⟩ : ∃ k, st.offset = 0 + BitVec.ofNat 32 k ∧ st.fp.pos = 0 + k :=
    ((pushRest_counting name).comp (pushHdr_counting hhdr)) ⟨0, .empty⟩
  have hk : k = 124 := by
    have hname : name.length = 10 := rfl
    have hhead : headSize hdr.mtime hdr.filesize name = 124 := by
      rw [headSize_of_lt hzero hzero, hname]
      rfl
    have hwritten : st.fp.written = [] ++ recordHead hdr name :=
      (recordHead_appends_rest hdr name ⟨0, .empty⟩ rfl).1
    have hlength := congrArg List.length hwritten
    rw [TmpFile.length_written, List.nil_append, length_recordHead, hhead, hpos, Nat.zero_add] at hlength
    exact hlength
  subst hk
  have htrailer : cpioTrailer ⟨0, .empty⟩ = trailerLoop 511 st := rfl
  have hloop : (trailerLoop 511 st).fp.pos = st.fp.pos + (512 - 124) :=
    trailerLoop_pos (hoff.trans (BitVec.zero_add _)) (by decide) (by decide) (by decide)
  rw [TmpFile.length_written, htrailer, hloop, hpos]

end SugarNSpice.Cpio

namespace SugarNSpice.GenInitCpio

open Cpio Processes

variable {job : Job} {n : Nat}

/-! ## The archive -/

/-- All of stdout at the end: what the threads have left there, and the
trailer. -/
def output (s : State (Option (Fin n)) (Shared n) Pc) : List Byte :=
  s.shared.stdout ++ (cpioTrailer ⟨0, .empty⟩).fp.written

def Job.lineSize (job : Job) (i : Nat) : Nat := ((job.entry i).map (Entry.size job.mtime)).getD 0

def Job.size (job : Job) : Nat := (job.lines.map job.lineSize).sum

theorem Job.length_group (g : Mark) : (job.group g).length = job.lineSize g.1 := by
  unfold Job.group Job.template Job.lineSize
  cases job.entry g.1 with
  | none => rfl
  | some e => exact e.length_group job.mtime g.2

/-- A complete run with small copies writes the list's records and 512 bytes. -/
theorem length_output {tr : List (Option (Fin n) × Event)} {s : State (Option (Fin n)) (Shared n) Pc}
    (hw : job.WellFormed) (hn : 0 < n) (h : Runs job n tr s) (hc : Complete s) (small : Small tr) :
    (output s).length = job.size + 512 := by
  obtain ⟨out, hintact⟩ := intact_of_complete hw hn h hc small
  have hgroups : (job.bytes out).length = job.size := by
    calc (job.bytes out).length
        = (out.map fun g => (job.group g).length).sum := List.length_flatMap
      _ = ((out.map Prod.fst).map job.lineSize).sum := by
          rw [List.map_map]
          exact congrArg List.sum (List.map_congr_left fun g _ => Job.length_group g)
      _ = job.size := (hintact.lines.map job.lineSize).sum_nat
  rw [output, List.length_append, length_trailer, hintact.bytes, hgroups]

/-- **The archive is a number of blocks** just when the records of the list
are: the zeros after the trailer do not make up for the rest. -/
theorem output_blocks_iff {tr : List (Option (Fin n) × Event)} {s : State (Option (Fin n)) (Shared n) Pc}
    (hw : job.WellFormed) (hn : 0 < n) (h : Runs job n tr s) (hc : Complete s) (small : Small tr) :
    (output s).length % 512 = 0 ↔ job.size % 512 = 0 := by
  rw [length_output hw hn h hc small, Nat.add_mod_right]

/-! ## A list of one line -/

theorem size_solo {line : List Byte} {e : Entry} (htable : job.table = [line]) (ha : action job.files line = .emit e) :
    job.size = e.size job.mtime := by
  have hentry : job.entry 0 = some e := Job.entry_eq (by rw [htable]; rfl) ha
  have hlines : job.lines = [0] := by
    rw [Job.lines, htable]
    refine List.filter_eq_self.2 fun i hi => ?_
    rw [Nat.lt_one_iff.1 (List.mem_range.1 hi), hentry]
    rfl
  rw [Job.size, hlines, List.map_singleton, List.sum_singleton, Job.lineSize, hentry]
  rfl

/-- `file a f 0 0 0`, with `size` bytes in `f`. -/
def fileJob (size : Nat) : Job := ⟨[linksLine 0], fun _ => some ⟨List.replicate size 0, 0⟩, 0⟩

theorem action_fileJob (size : Nat) : action (fileJob size).files (linksLine 0) =
    .emit (.file ⟨List.replicate size 0, 0⟩ [[97]] 0 0 0) := rfl

theorem size_fileJob {size : Nat} (hsize : size < 2 ^ 32) :
    Entry.size 0 (.file ⟨List.replicate size 0, 0⟩ [[97]] 0 0 0) = 112 + roundUp size := by
  rw [Entry.size, linksSize_of_lt (by simp) (by simpa using hsize) (List.cons_ne_nil _ _), List.length_replicate]
  rfl

/-- 400 bytes of data make a block with their header. -/
theorem output_blocks_file :
    ∃ tr s, Runs (fileJob 400) 1 tr s ∧ Complete s ∧ Small tr ∧ (output s).length % 512 = 0 := by
  have ha := action_fileJob 400
  have hsize := size_fileJob (show 400 < 2 ^ 32 by decide)
  obtain ⟨s, hrun, hc, -⟩ := solo_run (fileJob 400) rfl ha
  have hsmall := small_solo (show 112 + roundUp 400 < 2 ^ 31 by decide)
  rw [pos_emit, Entry.length_group, fileJob, hsize] at hrun
  have hblocks : (fileJob 400).size % 512 = 0 := by
    rw [size_solo rfl ha, fileJob, hsize]
    decide
  exact ⟨_, s, hrun, hc, hsmall, (output_blocks_iff (wellFormed_of_emit rfl ha) Nat.one_pos hrun hc hsmall).2 hblocks⟩

/-- **The archive of one directory** has 624 bytes. -/
theorem output_ends_in_block : (⟨[dirLine], fun _ => none, 0⟩ : Job).WellFormed ∧
    ∃ tr s, Runs ⟨[dirLine], fun _ => none, 0⟩ 1 tr s ∧ Complete s ∧ Small tr ∧ (output s).length = 624 := by
  have hsize : Entry.size 0 (.generic [100] 0x4000 0 0) = 112 := headSize_of_lt (by decide) (by decide) _
  have hw : (⟨[dirLine], fun _ => none, 0⟩ : Job).WellFormed := wellFormed_of_emit rfl action_dirLine
  obtain ⟨s, hrun, hc, -⟩ := solo_run ⟨[dirLine], fun _ => none, 0⟩ rfl action_dirLine
  rw [pos_emit, Entry.length_group, hsize] at hrun
  have hsmall := small_solo (show 112 < 2 ^ 31 by decide)
  refine ⟨hw, _, s, hrun, hc, hsmall, ?_⟩
  rw [length_output hw Nat.one_pos hrun hc hsmall, size_solo rfl action_dirLine, hsize]

end SugarNSpice.GenInitCpio
