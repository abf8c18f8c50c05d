/-
The archive reads back.

The digits of a header are read as its numbers, so each record lies as the
format wants it; the bytes of a worker's entries are their records one after
the other, whatever dumps come between; and the trailer is one more record,
with zero bytes behind it.
-/
import SugarNSpice.CpioArchive
import Mathlib.Tactic.Ring

namespace SugarNSpice.Cpio

open CLang (ascii)

/-! ## Digits -/

theorem hexValue_hexDigit : ∀ n < 16, Newc.hexValue (hexDigit n) = some n := by decide

theorem hexFixed_succ (w n : Nat) : hexFixed (w + 1) n = hexDigit (n / 16 ^ w % 16) :: hexFixed w n := by
  simp [hexFixed, List.range_succ]

theorem hexNumber_hexFixed (w n acc : Nat) :
    Newc.hexNumber acc (hexFixed w n) = some (acc * 16 ^ w + n % 16 ^ w) := by
  induction w generalizing acc with
  | zero => simp [hexFixed, Newc.hexNumber, Nat.mod_one]
  | succ w ih =>
    rw [hexFixed_succ, Newc.hexNumber, hexValue_hexDigit _ (Nat.mod_lt _ (by decide)), Option.bind_some, ih,
      Nat.mod_pow_succ, Nat.pow_succ]
    congr 1
    ring

theorem digits_hexFixed {n : Nat} (h : n < 2 ^ 32) : Newc.Digits (hexFixed 8 n) n := by
  refine ⟨length_hexFixed 8 n, ?_⟩
  have hpow : (16 : Nat) ^ 8 = 2 ^ 32 := by decide
  rw [hexNumber_hexFixed, hpow, Nat.mod_eq_of_lt h, Nat.zero_mul, Nat.zero_add]

theorem digits_hexInt (v : BitVec 32) : Newc.Digits (hexInt v) v.toNat := digits_hexFixed v.isLt

theorem digits_hexLong {v : BitVec 64} (h : v.toNat < 2 ^ 32) : Newc.Digits (hexLong v) v.toNat := by
  have hlog : Nat.log 16 v.toNat < 8 := Nat.log_lt_of_lt_pow' (by decide) h
  rw [hexLong, Nat.max_eq_left hlog]
  exact digits_hexFixed h

theorem digits_hexLong_setWidth (v : BitVec 32) : Newc.Digits (hexLong (v.setWidth 64)) v.toNat := by
  have hv : (v.setWidth 64).toNat = v.toNat := by
    rw [BitVec.toNat_setWidth, Nat.mod_eq_of_lt (Nat.lt_trans v.isLt (by decide))]
  rw [← hv]
  exact digits_hexLong (hv ▸ v.isLt)

/-! ## Records -/

def Header.numbers (h : Header) : List Nat :=
  [h.ino.toNat, h.mode.toNat, h.uid.toNat, h.gid.toNat, h.nlink.toNat, h.mtime.toNat, h.filesize.toNat, h.major.toNat,
    h.minor.toNat, h.rmajor.toNat, h.rminor.toNat, h.namesize.toNat, 0]

theorem recordHead_lays {h : Header} {r : Newc.Record} (hmtime : h.mtime.toNat < 2 ^ 32)
    (hsize : h.filesize.toNat < 2 ^ 32) (hfields : h.numbers = r.fields) (hname : 0 ∉ r.name) :
    Newc.Lays r (recordHead h r.name ++ (r.data ++ padding r.data.length)) := by
  refine ⟨hname, [hexInt h.ino, hexInt h.mode, hexLong (h.uid.setWidth 64), hexLong (h.gid.setWidth 64),
    hexInt h.nlink, hexLong h.mtime, hexLong h.filesize, hexInt h.major, hexInt h.minor, hexInt h.rmajor,
    hexInt h.rminor, hexInt h.namesize, hexInt 0], ?_, ?_⟩
  · rw [← hfields]
    refine .cons (digits_hexInt _) <| .cons (digits_hexInt _) <| .cons (digits_hexLong_setWidth _) <|
      .cons (digits_hexLong_setWidth _) <| .cons (digits_hexInt _) <| .cons (digits_hexLong hmtime) <|
      .cons (digits_hexLong hsize) <| .cons (digits_hexInt _) <| .cons (digits_hexInt _) <|
      .cons (digits_hexInt _) <| .cons (digits_hexInt _) <| .cons (digits_hexInt _) <|
      .cons (digits_hexInt 0) .nil
  · have hmagic : ascii ['0', '7', '0', '7', '0', '1'] = Newc.magic := rfl
    simp only [recordHead, Header.bytes, hmagic, padding, Newc.pad, List.flatten_cons, List.flatten_nil,
      List.append_nil, List.append_assoc]

theorem skipSlash_sublist (name : List Byte) : (skipSlash name).Sublist name := by
  cases name with
  | nil => exact .slnil
  | cons c cs =>
    rw [skipSlash]
    split
    · exact List.sublist_cons_self c cs
    · exact .refl _

theorem IsName.nulFree_skipSlash {name : List Byte} (h : IsName name) : 0 ∉ skipSlash name :=
  fun hmem => h.nulFree ((skipSlash_sublist name).subset hmem)

theorem IsName.toNat_strSize {name : List Byte} (h : IsName name) :
    (strSize (skipSlash name)).toNat = (skipSlash name).length + 1 := by
  have hle := (skipSlash_sublist name).length_le
  have := h.length
  rw [strSize, BitVec.toNat_ofNat, Nat.mod_eq_of_lt (by omega)]

theorem linkRecord_lays {src : Source} {ino mode uid gid nlinks : BitVec 32} {name : List Byte} {last : Bool}
    (hname : IsName name) (hmtime : src.mtime.toNat < 2 ^ 32) (hdata : src.data.length < 2 ^ 32) :
    Newc.Lays ⟨ino.toNat, mode.toNat, uid.toNat, gid.toNat, nlinks.toNat, src.mtime.toNat, 3, 1, 0, 0, skipSlash name,
      if last then src.data else []⟩ (linkRecord src ino mode uid gid nlinks name last) := by
  have hlen : (if last then src.data else []).length < 2 ^ 32 := by
    split
    · exact hdata
    · exact Nat.two_pow_pos 32
  have hsize : (BitVec.ofNat 64 (if last then src.data else []).length).toNat = (if last then src.data else []).length := by
    rw [BitVec.toNat_ofNat, Nat.mod_eq_of_lt (Nat.lt_trans hlen (by decide))]
  refine recordHead_lays (h := ⟨_, _, _, _, _, _, _, _, _, _, _, _⟩) hmtime (hsize.trans_lt hlen) ?_
    hname.nulFree_skipSlash
  simp only [Header.numbers, Newc.Record.fields, hsize, hname.toNat_strSize]
  rfl

theorem linkRecords_lays {src : Source} {ino mode uid gid nlinks : BitVec 32} {names : List (List Byte)}
    (hnames : ∀ name ∈ names, IsName name) (hmtime : src.mtime.toNat < 2 ^ 32) (hdata : src.data.length < 2 ^ 32) :
    List.Forall₂ Newc.Lays (linkContents src ino mode uid gid nlinks.toNat names)
      (linkRecords src ino mode uid gid nlinks names) := by
  induction names with
  | nil => exact .nil
  | cons name names ih =>
    exact .cons (linkRecord_lays (hnames name (.head _)) hmtime hdata) (ih fun x hx => hnames x (.tail _ hx))

/-- **An entry's records lie as they should.** -/
theorem Entry.lays {mtime : BitVec 64} (hmtime : mtime.toNat < 2 ^ 32) (ino : BitVec 32) {e : Entry} (he : e.Fits) :
    List.Forall₂ Newc.Lays (e.contents mtime ino) (e.records mtime ino) := by
  have hzero : (0 : BitVec 64).toNat < 2 ^ 32 := by decide
  cases e with
  | slink name target mode uid gid =>
    obtain ⟨hname, htarget⟩ := he
    have hsize : ((strSize target).setWidth 64).toNat = target.length + 1 := by
      rw [BitVec.toNat_setWidth, strSize, BitVec.toNat_ofNat, Nat.mod_eq_of_lt htarget, Nat.mod_eq_of_lt (by omega)]
    have hlen : target.length + 1 = (target ++ [0]).length := by rw [List.length_append, List.length_singleton]
    refine .cons ?_ .nil
    rw [hlen]
    refine recordHead_lays (h := ⟨_, _, _, _, _, _, _, _, _, _, _, _⟩) hmtime (hsize.trans_lt htarget) ?_
      hname.nulFree_skipSlash
    simp only [Header.numbers, Newc.Record.fields, hsize, hname.toNat_strSize, hlen]
    rfl
  | generic name mode uid gid =>
    have hname : IsName name := he
    have hrecord := recordHead_lays (h := ⟨ino, mode, uid, gid, 2, mtime, 0, 3, 1, 0, 0, strSize (skipSlash name)⟩)
      (r := ⟨ino.toNat, mode.toNat, uid.toNat, gid.toNat, 2, mtime.toNat, 3, 1, 0, 0, skipSlash name, []⟩) hmtime hzero
      (by simp only [Header.numbers, Newc.Record.fields, hname.toNat_strSize]; rfl) hname.nulFree_skipSlash
    exact .cons (by simpa [padding] using hrecord) .nil
  | nod name mode uid gid devType maj min =>
    have hname : IsName name := he
    have hrecord := recordHead_lays
      (h := ⟨ino, if devType = 98 then mode ||| 0x6000 else mode ||| 0x2000, uid, gid, 1, mtime, 0, 3, 1, maj, min,
        strSize (skipSlash name)⟩)
      (r := ⟨ino.toNat, (if devType = 98 then mode ||| 0x6000 else mode ||| 0x2000).toNat, uid.toNat, gid.toNat, 1,
        mtime.toNat, 3, 1, maj.toNat, min.toNat, skipSlash name, []⟩) hmtime hzero
      (by simp only [Header.numbers, Newc.Record.fields, hname.toNat_strSize]; rfl) hname.nulFree_skipSlash
    exact .cons (by simpa [padding] using hrecord) .nil
  | file src names mode uid gid =>
    obtain ⟨hnames, hcount, hmtime, hdata⟩ := he
    have hlinks : (BitVec.ofNat 32 names.length).toNat = names.length := by
      rw [BitVec.toNat_ofNat, Nat.mod_eq_of_lt hcount]
    have hall : List.Forall₂ Newc.Lays _
        (linkRecords src ino (mode ||| 0x8000) uid gid (BitVec.ofNat 32 names.length) names) :=
      linkRecords_lays hnames hmtime hdata
    rwa [hlinks] at hall

/-! ## The archive -/

def Op.records (mtime : BitVec 64) : Op → List (List Byte)
  | .emit ino e => e.records mtime ino
  | .dump => []

/-- A worker's bytes are its records, one after the other: the padding by
`offset` is right at the start and after each dump and entry. -/
theorem work_written (mtime : BitVec 64) (ops : List Op) :
    (work mtime ops).2 ++ (work mtime ops).1.fp.written = (ops.flatMap (Op.records mtime)).flatten := by
  have hfold : ∀ (ops : List Op) (st : MyState) (out : List Byte), st.offset.toNat % 4 = 0 →
      (ops.foldl (Op.apply mtime) (st, out)).2 ++ (ops.foldl (Op.apply mtime) (st, out)).1.fp.written =
        out ++ st.fp.written ++ (ops.flatMap (Op.records mtime)).flatten := by
    intro ops
    induction ops with
    | nil => intro st out _; simp
    | cons op ops ih =>
      intro st out hst
      cases op with
      | emit ino e =>
        obtain ⟨hw, hoff⟩ := e.emit_appends mtime ino st hst
        rw [List.foldl_cons, Op.apply, ih _ _ hoff, hw]
        simp [Op.records, Entry.group]
      | dump =>
        rw [List.foldl_cons, Op.apply, ih _ _ rfl]
        simp [Op.records]
  rw [work, hfold ops _ _ rfl]
  simp

theorem Op.lays {mtime : BitVec 64} (hmtime : mtime.toNat < 2 ^ 32) {ops : List Op} (hops : ∀ op ∈ ops, op.Fits) :
    List.Forall₂ Newc.Lays (ops.flatMap (Op.contents mtime)) (ops.flatMap (Op.records mtime)) := by
  induction ops with
  | nil => exact .nil
  | cons op ops ih =>
    rw [List.flatMap_cons, List.flatMap_cons]
    refine List.rel_append ?_ (ih fun x hx => hops x (.tail _ hx))
    have hop := hops op (.head _)
    cases op with
    | emit ino e => exact e.lays hmtime ino hop
    | dump => exact .nil

theorem name_ne_linkContents {src : Source} {ino mode uid gid : BitVec 32} {nlinks : Nat} {names : List (List Byte)}
    (hnames : ∀ name ∈ names, IsName name) :
    ∀ r ∈ linkContents src ino mode uid gid nlinks names, r.name ≠ Newc.trailerName := by
  induction names with
  | nil => exact nofun
  | cons name names ih =>
    intro r hr
    rcases List.mem_cons.1 hr with rfl | hr
    · exact (hnames name (.head _)).notTrailer
    · exact ih (fun x hx => hnames x (.tail _ hx)) r hr

/-- No record of an entry is taken for the trailer. -/
theorem Entry.name_ne {mtime : BitVec 64} {ino : BitVec 32} {e : Entry} (he : e.Fits) :
    ∀ r ∈ e.contents mtime ino, r.name ≠ Newc.trailerName := by
  intro r hr
  cases e with
  | slink name target mode uid gid =>
    rw [List.mem_singleton.1 hr]
    exact he.1.notTrailer
  | generic name mode uid gid =>
    rw [List.mem_singleton.1 hr]
    exact IsName.notTrailer he
  | nod name mode uid gid devType maj min =>
    rw [List.mem_singleton.1 hr]
    exact IsName.notTrailer he
  | file src names mode uid gid => exact name_ne_linkContents he.1 r hr

theorem trailerLoop_written (n : Nat) (st : MyState) :
    ∃ rest, (trailerLoop n st).fp.written = st.fp.written ++ rest := by
  induction n generalizing st with
  | zero => exact ⟨[], (List.append_nil _).symm⟩
  | succ n ih =>
    rw [trailerLoop]
    split
    · obtain ⟨rest, hrest⟩ := ih (st.put [0] 1)
      refine ⟨[0] ++ rest, ?_⟩
      rw [hrest, MyState.put, TmpFile.written_write, List.append_assoc]
    · exact ⟨[], (List.append_nil _).symm⟩

theorem cpioTrailer_written :
    ∃ bytes rest, (cpioTrailer ⟨0, .empty⟩).fp.written = bytes ++ rest ∧ Newc.Lays trailer bytes := by
  have hname : ascii ['T', 'R', 'A', 'I', 'L', 'E', 'R', '!', '!', '!'] = Newc.trailerName := rfl
  have hlays := recordHead_lays (h := ⟨0, 0, 0, 0, 1, 0, 0, 0, 0, 0, 0, strSize Newc.trailerName⟩) (r := trailer)
    (by decide) (by decide) rfl (by decide)
  obtain ⟨rest, hrest⟩ := trailerLoop_written 511 (pushRest Newc.trailerName
    (pushHdr (Header.bytes ⟨0, 0, 0, 0, 1, 0, 0, 0, 0, 0, 0, strSize Newc.trailerName⟩) ⟨0, .empty⟩))
  obtain ⟨hwritten, -⟩ := recordHead_appends_rest ⟨0, 0, 0, 0, 1, 0, 0, 0, 0, 0, 0, strSize Newc.trailerName⟩
    Newc.trailerName ⟨0, .empty⟩ rfl
  rw [hwritten] at hrest
  refine ⟨_, rest, ?_, by simpa [padding, trailer] using hlays⟩
  rw [cpioTrailer, hname]
  simpa using hrest

/-- **Decoding gives back the entries.** A reader of the archive that one
worker's entries make, with dumps anywhere between them, gets their records in
order and then the trailer, each from a multiple of 4. -/
theorem read_archive {mtime : BitVec 64} (hmtime : mtime.toNat < 2 ^ 32) {ops : List Op}
    (hops : ∀ op ∈ ops, op.Fits) :
    ∃ out, Newc.read (archive mtime ops) = some out ∧
      out.map Prod.snd = ops.flatMap (Op.contents mtime) ++ [trailer] ∧ ∀ x ∈ out, x.1 % 4 = 0 := by
  obtain ⟨bytes, rest, htrailer, hlays⟩ := cpioTrailer_written
  rw [archive, work_written, htrailer]
  refine Newc.read_laid (Op.lays hmtime hops) (fun r hr => ?_) hlays rfl rest
  obtain ⟨op, hop, hr⟩ := List.mem_flatMap.1 hr
  have hfits := hops op hop
  cases op with
  | emit ino e => exact e.name_ne hfits r hr
  | dump => cases hr

/-- A directory, a dump, and a file of five bytes with two links. -/
def sampleOps : List Op :=
  [.emit 721 (.generic (ascii ['/', 'a']) 0x41ED 0 0), .dump,
    .emit 722 (.file ⟨[1, 2, 3, 4, 5], 7⟩ [ascii ['a', '/', 'b'], ascii ['/', 'c']] 0x1A4 0 0)]

theorem read_archive_sample :
    ∃ out, Newc.read (archive 0 sampleOps) = some out ∧
      out.map Prod.snd = sampleOps.flatMap (Op.contents 0) ++ [trailer] ∧ ∀ x ∈ out, x.1 % 4 = 0 := by
  refine read_archive (by decide) fun op hop => ?_
  have ha : IsName (ascii ['/', 'a']) := ⟨by decide, by decide, by decide⟩
  have hb : IsName (ascii ['a', '/', 'b']) := ⟨by decide, by decide, by decide⟩
  have hc : IsName (ascii ['/', 'c']) := ⟨by decide, by decide, by decide⟩
  simp only [sampleOps, List.mem_cons, List.not_mem_nil, or_false] at hop
  rcases hop with rfl | rfl | rfl
  · exact ha
  · trivial
  · refine ⟨fun name hname => ?_, by decide, by decide, by decide⟩
    simp only [List.mem_cons, List.not_mem_nil, or_false] at hname
    rcases hname with rfl | rfl
    · exact hb
    · exact hc

end SugarNSpice.Cpio
