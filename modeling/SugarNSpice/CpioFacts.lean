/-
What a worker writes for an entry depends on the entry and its inode number
alone.

The records are given here as they come out (`Entry.records`), and each
function that writes is shown to append its bytes and to keep `offset` a
multiple of 4 from one entry to the next. So the padding by `offset` is the
same wherever in the file an entry starts, after however many dumps.
-/
import SugarNSpice.Cpio
import Mathlib.Data.List.Basic

namespace SugarNSpice.Cpio

open CLang (ascii)

/-! ## The file -/

/-- What has been written since the last `rewind`. -/
def TmpFile.written (f : TmpFile) : List Byte := f.data.take f.pos

theorem TmpFile.length_written (f : TmpFile) : f.written.length = f.pos := by
  rw [TmpFile.written, List.length_take, Nat.min_eq_left f.le]

@[simp] theorem TmpFile.written_empty : TmpFile.empty.written = [] := rfl

@[simp] theorem TmpFile.written_rewind (f : TmpFile) : f.rewind.written = [] := rfl

@[simp] theorem TmpFile.written_write (f : TmpFile) (bs : List Byte) : (f.write bs).written = f.written ++ bs := by
  have hle := f.le
  rw [TmpFile.written, TmpFile.write, List.take_left' ?_, TmpFile.written]
  rw [List.length_append, List.length_take, Nat.min_eq_left hle]

/-! ## Writing -/

/-- Zero bytes up to a multiple of 4, from `n` on. -/
def padding (n : Nat) : List Byte := List.replicate ((4 - n % 4) % 4) 0

/-- `f` writes `bs` where `offset` is `r` modulo 4, and leaves it at `r'`. -/
def Appends (f : MyState → MyState) (bs : List Byte) (r r' : Nat) : Prop :=
  ∀ st : MyState, st.offset.toNat % 4 = r % 4 →
    (f st).fp.written = st.fp.written ++ bs ∧ (f st).offset.toNat % 4 = r' % 4

theorem Appends.comp {f g : MyState → MyState} {bs bs' : List Byte} {r r' r'' : Nat} (hg : Appends g bs' r' r'')
    (hf : Appends f bs r r') : Appends (fun st => g (f st)) (bs ++ bs') r r'' := by
  intro st hst
  obtain ⟨hw, hr⟩ := hf st hst
  obtain ⟨hw', hr'⟩ := hg (f st) hr
  exact ⟨by rw [hw', hw, List.append_assoc], hr'⟩

theorem Appends.congr {f : MyState → MyState} {bs bs' : List Byte} {r r' r'' : Nat} (h : Appends f bs r r')
    (hbs : bs = bs') (hr : r' % 4 = r'' % 4) : Appends f bs' r r'' := fun st hst => by
  obtain ⟨hw, hr'⟩ := h st hst
  exact ⟨hbs ▸ hw, hr'.trans hr⟩

theorem put_appends (bs : List Byte) (n r : Nat) : Appends (fun st => st.put bs n) bs r (r + n) := by
  intro st hst
  refine ⟨TmpFile.written_write _ _, ?_⟩
  simp only [MyState.put, BitVec.toNat_add, BitVec.toNat_ofNat]
  omega

theorem and_three_eq_zero_iff (x : BitVec 32) : x &&& 3 = 0 ↔ x.toNat % 4 = 0 := by
  have hand : (x &&& 3).toNat = x.toNat % 4 := by
    rw [BitVec.toNat_and]
    exact Nat.and_two_pow_sub_one_eq_mod x.toNat 2
  rw [← hand]
  exact ⟨fun h => by rw [h]; rfl, fun h => BitVec.eq_of_toNat_eq h⟩

theorem padding_of_dvd {n : Nat} (h : n % 4 = 0) : padding n = [] := by simp [padding, h]

theorem padding_of_not_dvd {n : Nat} (h : n % 4 ≠ 0) : padding n = 0 :: padding (n + 1) := by
  rw [padding, padding, ← List.replicate_succ]
  congr 1
  omega

theorem padding_congr {m n : Nat} (h : m % 4 = n % 4) : padding m = padding n := by rw [padding, padding, h]

/-- Enough turns of the loop pad to a multiple of 4. -/
theorem pushPadLoop_appends : ∀ {n r : Nat}, (4 - r % 4) % 4 ≤ n → Appends (pushPadLoop n) (padding r) r 0 := by
  intro n
  induction n with
  | zero =>
    intro r hr st hst
    rw [padding_of_dvd (by omega), List.append_nil]
    exact ⟨rfl, by simp only [pushPadLoop]; omega⟩
  | succ n ih =>
    intro r hr st hst
    rw [pushPadLoop]
    split
    · next hne =>
      have hr4 : r % 4 ≠ 0 := fun h => hne ((and_three_eq_zero_iff _).2 (by omega))
      rw [padding_of_not_dvd hr4]
      exact (ih (r := r + 1) (by omega)).comp (put_appends [0] 1 r) st hst
    · next heq =>
      have hr4 := (and_three_eq_zero_iff _).1 (not_not.1 heq)
      rw [padding_of_dvd (by omega), List.append_nil]
      exact ⟨rfl, by omega⟩

theorem pushPad_appends (r : Nat) : Appends pushPad (padding r) r 0 := pushPadLoop_appends (by omega)

theorem pushString_appends (name : List Byte) (r : Nat) :
    Appends (pushString name) (name ++ [0]) r (r + (name.length + 1)) := put_appends _ _ _

theorem pushHdr_appends (s : List Byte) (r : Nat) : Appends (pushHdr s) s r (r + 110) := put_appends _ _ _

theorem pushRestLoop_appends : ∀ {n : Nat} {t : BitVec 32} {r : Nat}, (4 - t.toNat % 4) % 4 ≤ n →
    Appends (pushRestLoop n t) (padding t.toNat) r (r + (4 - t.toNat % 4) % 4) := by
  intro n
  induction n with
  | zero =>
    intro t r hr st hst
    rw [padding_of_dvd (by omega), List.append_nil]
    exact ⟨rfl, by simp only [pushRestLoop]; omega⟩
  | succ n ih =>
    intro t r hr st hst
    rw [pushRestLoop]
    split
    · next hne =>
      have hr4 : t.toNat % 4 ≠ 0 := fun h => hne ((and_three_eq_zero_iff _).2 h)
      have hnext : (t + 1).toNat % 4 = (t.toNat + 1) % 4 := by
        have hone : (1 : BitVec 32).toNat = 1 := rfl
        rw [BitVec.toNat_add, hone]
        omega
      rw [padding_of_not_dvd hr4, ← padding_congr hnext]
      exact ((ih (t := t + 1) (r := r + 1) (by omega)).comp (put_appends [0] 1 r)).congr rfl (by omega) st hst
    · next heq =>
      have hr4 := (and_three_eq_zero_iff _).1 (not_not.1 heq)
      rw [padding_of_dvd hr4, List.append_nil]
      exact ⟨rfl, by omega⟩

theorem pushRest_appends (name : List Byte) :
    Appends (pushRest name) (name ++ [0] ++ padding (110 + (name.length + 1))) 110 0 := by
  have hofs : (BitVec.ofNat 32 (name.length + 1 + 110)).toNat % 4 = (110 + (name.length + 1)) % 4 := by
    rw [BitVec.toNat_ofNat]
    omega
  refine ((pushRestLoop_appends (n := 3) (by omega)).comp (pushString_appends name 110)).congr ?_ (by omega)
  rw [padding_congr hofs]

/-! ## Records -/

/-- A record up to its body: header, name and padding. -/
def recordHead (h : Header) (name : List Byte) : List Byte :=
  h.bytes ++ (name ++ [0]) ++ padding (110 + (name.length + 1))

def linkRecord (src : Source) (ino mode uid gid nlinks : BitVec 32) (name : List Byte) (last : Bool) : List Byte :=
  let name := skipSlash name
  let data := if last then src.data else []
  recordHead ⟨ino, mode, uid, gid, nlinks, src.mtime, BitVec.ofNat 64 data.length, 3, 1, 0, 0, strSize name⟩ name ++
    (data ++ padding data.length)

def linkRecords (src : Source) (ino mode uid gid nlinks : BitVec 32) : List (List Byte) → List (List Byte)
  | [] => []
  | name :: names =>
    linkRecord src ino mode uid gid nlinks name names.isEmpty :: linkRecords src ino mode uid gid nlinks names

def Entry.records (mtime : BitVec 64) (ino : BitVec 32) : Entry → List (List Byte)
  | .slink name target mode uid gid =>
    let name := skipSlash name
    [recordHead
        ⟨ino, 0xA000 ||| mode, uid, gid, 1, mtime, (strSize target).setWidth 64, 3, 1, 0, 0, strSize name⟩ name ++
      (target ++ [0] ++ padding (target.length + 1))]
  | .generic name mode uid gid =>
    let name := skipSlash name
    [recordHead ⟨ino, mode, uid, gid, 2, mtime, 0, 3, 1, 0, 0, strSize name⟩ name]
  | .nod name mode uid gid devType maj min =>
    let mode := if devType = 98 then mode ||| 0x6000 else mode ||| 0x2000
    let name := skipSlash name
    [recordHead ⟨ino, mode, uid, gid, 1, mtime, 0, 3, 1, maj, min, strSize name⟩ name]
  | .file src names mode uid gid =>
    linkRecords src ino (mode ||| 0x8000) uid gid (BitVec.ofNat 32 names.length) names

/-- The bytes of an entry: its records, one after the other. -/
def Entry.group (mtime : BitVec 64) (ino : BitVec 32) (e : Entry) : List Byte := (e.records mtime ino).flatten

theorem recordHead_appends (h : Header) (name : List Byte) :
    Appends (fun st => pushPad (pushString name (pushHdr h.bytes st))) (recordHead h name) 0 0 := by
  refine ((pushPad_appends _).comp ((pushString_appends name _).comp (pushHdr_appends h.bytes 0))).congr ?_ rfl
  rw [Nat.zero_add, recordHead]

theorem recordHead_appends_rest (h : Header) (name : List Byte) :
    Appends (fun st => pushRest name (pushHdr h.bytes st)) (recordHead h name) 0 0 := by
  refine ((pushRest_appends name).comp (pushHdr_appends h.bytes 0)).congr ?_ rfl
  rw [recordHead, List.append_assoc, List.append_assoc, List.append_assoc]

theorem mkfileLink_appends (src : Source) (ino mode uid gid nlinks : BitVec 32) (name : List Byte) (last : Bool) :
    Appends (mkfileLink src ino mode uid gid nlinks name last)
      (linkRecord src ino mode uid gid nlinks name last) 0 0 := by
  unfold mkfileLink linkRecord
  generalize (if last then src.data else []) = data
  by_cases hd : data.length = 0
  · obtain rfl := List.length_eq_zero_iff.1 hd
    simp only [List.length_nil, ne_eq, not_true_eq_false, if_false]
    exact (recordHead_appends _ _).congr (by simp [padding]) rfl
  · simp only [ne_eq, hd, not_false_eq_true, if_true]
    refine ((pushPad_appends _).comp ((put_appends data data.length 0).comp (recordHead_appends _ _))).congr ?_ rfl
    rw [Nat.zero_add, List.append_assoc]

theorem mkfileLoop_appends (src : Source) (ino mode uid gid nlinks : BitVec 32) (names : List (List Byte)) :
    Appends (mkfileLoop src ino mode uid gid nlinks names)
      (linkRecords src ino mode uid gid nlinks names).flatten 0 0 := by
  induction names with
  | nil => intro st hst; exact ⟨by simp [linkRecords, mkfileLoop], hst⟩
  | cons name names ih => exact ih.comp (mkfileLink_appends src ino mode uid gid nlinks name names.isEmpty)

/-- **What an entry writes**: its group, whatever was written before. -/
theorem Entry.emit_appends (mtime : BitVec 64) (ino : BitVec 32) (e : Entry) :
    Appends (e.emit mtime ino) (e.group mtime ino) 0 0 := by
  cases e with
  | slink name target mode uid gid =>
    have hhead := recordHead_appends ⟨ino, 0xA000 ||| mode, uid, gid, 1, mtime, (strSize target).setWidth 64, 3, 1, 0, 0,
      strSize (skipSlash name)⟩ (skipSlash name)
    refine ((pushPad_appends _).comp ((pushString_appends target 0).comp hhead)).congr ?_ rfl
    simp [Entry.group, Entry.records]
  | generic name mode uid gid =>
    exact (recordHead_appends_rest _ (skipSlash name)).congr (by simp [Entry.group, Entry.records]) rfl
  | nod name mode uid gid devType maj min =>
    exact (recordHead_appends_rest _ (skipSlash name)).congr (by simp [Entry.group, Entry.records]) rfl
  | file src names mode uid gid => exact mkfileLoop_appends src ino _ uid gid _ names

/-! ## Inode numbers -/

/-- The field of a record that holds its inode number. -/
def inoField (r : List Byte) : List Byte := (r.drop 6).take 8

theorem length_hexFixed (w n : Nat) : (hexFixed w n).length = w := by simp [hexFixed]

theorem Header.inoField_bytes (h : Header) (rest : List Byte) : inoField (h.bytes ++ rest) = hexInt h.ino := by
  have hmagic : (ascii ['0', '7', '0', '7', '0', '1']).length = 6 := rfl
  have hlen : (hexInt h.ino).length = 8 := length_hexFixed 8 _
  simp only [Header.bytes, List.append_assoc]
  rw [inoField, List.drop_left' hmagic, List.take_left' hlen]

theorem inoField_recordHead (h : Header) (name body : List Byte) :
    inoField (recordHead h name ++ body) = hexInt h.ino := by
  rw [recordHead, List.append_assoc, List.append_assoc, Header.inoField_bytes]

theorem inoField_linkRecords {src : Source} {ino mode uid gid nlinks : BitVec 32} {names : List (List Byte)}
    {r : List Byte} (h : r ∈ linkRecords src ino mode uid gid nlinks names) : inoField r = hexInt ino := by
  induction names with
  | nil => simp [linkRecords] at h
  | cons name names ih =>
    rw [linkRecords, List.mem_cons] at h
    rcases h with h | h
    · rw [h, linkRecord]
      exact inoField_recordHead _ _ _
    · exact ih h

theorem Entry.inoField_records {mtime : BitVec 64} {ino : BitVec 32} {e : Entry} {r : List Byte}
    (h : r ∈ e.records mtime ino) : inoField r = hexInt ino := by
  cases e with
  | slink name target mode uid gid =>
    rw [List.mem_singleton.1 h]
    exact inoField_recordHead _ _ _
  | generic name mode uid gid =>
    rw [List.mem_singleton.1 h, ← List.append_nil (recordHead _ _)]
    exact inoField_recordHead _ _ _
  | nod name mode uid gid devType maj min =>
    rw [List.mem_singleton.1 h, ← List.append_nil (recordHead _ _)]
    exact inoField_recordHead _ _ _
  | file src names mode uid gid => exact inoField_linkRecords h

theorem hexDigit_inj : ∀ m < 16, ∀ n < 16, hexDigit m = hexDigit n → m = n := by decide

theorem eq_of_digits_eq : ∀ {w a b : Nat}, a < 16 ^ w → b < 16 ^ w →
    (∀ i < w, a / 16 ^ i % 16 = b / 16 ^ i % 16) → a = b := by
  intro w
  induction w with
  | zero =>
    intro a b ha hb _
    rw [Nat.pow_zero] at ha hb
    omega
  | succ w ih =>
    intro a b ha hb h
    have hlow : a % 16 = b % 16 := by simpa using h 0 (Nat.succ_pos w)
    have hhigh : a / 16 = b / 16 := by
      refine ih (Nat.div_lt_of_lt_mul ?_) (Nat.div_lt_of_lt_mul ?_) fun i hi => ?_
      · rwa [← Nat.pow_succ']
      · rwa [← Nat.pow_succ']
      · rw [Nat.div_div_eq_div_mul, Nat.div_div_eq_div_mul, ← Nat.pow_succ']
        exact h (i + 1) (Nat.succ_lt_succ hi)
    omega

theorem hexInt_inj {v w : BitVec 32} (h : hexInt v = hexInt w) : v = w := by
  have hdigits : ∀ i < 8, v.toNat / 16 ^ i % 16 = w.toNat / 16 ^ i % 16 := by
    intro i hi
    unfold hexInt hexFixed at h
    have hm := List.map_inj_left.1 h i (by simpa using hi)
    exact hexDigit_inj _ (Nat.mod_lt _ (by decide)) _ (Nat.mod_lt _ (by decide)) hm
  exact BitVec.eq_of_toNat_eq (eq_of_digits_eq v.isLt w.isLt hdigits)

/-! ## Lengths -/

theorem length_hexInt (v : BitVec 32) : (hexInt v).length = 8 := length_hexFixed 8 _

/-- The digits of `%08lX`. -/
def longDigits (v : BitVec 64) : Nat := max 8 (Nat.log 16 v.toNat + 1)

theorem length_hexLong (v : BitVec 64) : (hexLong v).length = longDigits v := length_hexFixed _ _

theorem longDigits_eq_iff {v : BitVec 64} : longDigits v = 8 ↔ v.toNat < 2 ^ 32 := by
  have hpow : 2 ^ 32 = 16 ^ 8 := by decide
  have hlog : Nat.log 16 v.toNat < 8 ↔ v.toNat < 16 ^ 8 :=
    ⟨Nat.lt_pow_of_log_lt (by decide), Nat.log_lt_of_lt_pow' (by decide)⟩
  rw [longDigits, hpow, ← hlog]
  omega

theorem longDigits_setWidth (v : BitVec 32) : longDigits (v.setWidth 64) = 8 := by
  rw [longDigits_eq_iff, BitVec.toNat_setWidth, Nat.mod_eq_of_lt (Nat.lt_trans v.isLt (by decide))]
  exact v.isLt

/-- All fields of a header have eight digits but for the two that are a
`long`. -/
theorem Header.length_bytes (h : Header) : h.bytes.length = 94 + longDigits h.mtime + longDigits h.filesize := by
  simp only [Header.bytes, List.length_append, length_hexInt, length_hexLong, longDigits_setWidth, ascii,
    List.length_map, List.length_cons, List.length_nil]
  omega

/-- A header has the 110 bytes that `push_hdr` counts just when its `long`
fields need no more than eight digits. -/
theorem Header.length_eq_iff (h : Header) :
    h.bytes.length = 110 ↔ h.mtime.toNat < 2 ^ 32 ∧ h.filesize.toNat < 2 ^ 32 := by
  have hmtime : 8 ≤ longDigits h.mtime := Nat.le_max_left _ _
  have hsize : 8 ≤ longDigits h.filesize := Nat.le_max_left _ _
  rw [h.length_bytes, ← longDigits_eq_iff, ← longDigits_eq_iff]
  omega

/-- A multiple of 4, from `n` on. -/
def roundUp (n : Nat) : Nat := n + (4 - n % 4) % 4

theorem length_padded (bs : List Byte) : (bs ++ padding bs.length).length = roundUp bs.length := by
  rw [List.length_append, padding, List.length_replicate, roundUp]

/-- The length of a record up to its body. -/
def headSize (mtime filesize : BitVec 64) (name : List Byte) : Nat :=
  longDigits mtime + longDigits filesize - 16 + roundUp (110 + (name.length + 1))

theorem headSize_of_lt {mtime filesize : BitVec 64} (hmtime : mtime.toNat < 2 ^ 32) (hsize : filesize.toNat < 2 ^ 32)
    (name : List Byte) : headSize mtime filesize name = roundUp (110 + (name.length + 1)) := by
  rw [headSize, longDigits_eq_iff.2 hmtime, longDigits_eq_iff.2 hsize]
  omega

theorem length_recordHead (h : Header) (name : List Byte) :
    (recordHead h name).length = headSize h.mtime h.filesize name := by
  have hmtime : 8 ≤ longDigits h.mtime := Nat.le_max_left _ _
  have hsize : 8 ≤ longDigits h.filesize := Nat.le_max_left _ _
  simp only [recordHead, padding, List.length_append, h.length_bytes, List.length_replicate, List.length_singleton,
    headSize, roundUp]
  omega

def linksSize (src : Source) : List (List Byte) → Nat
  | [] => 0
  | name :: names =>
    let data := if names.isEmpty then src.data else []
    headSize src.mtime (BitVec.ofNat 64 data.length) (skipSlash name) + roundUp data.length + linksSize src names

theorem length_linkRecords (src : Source) (ino mode uid gid nlinks : BitVec 32) (names : List (List Byte)) :
    (linkRecords src ino mode uid gid nlinks names).flatten.length = linksSize src names := by
  induction names with
  | nil => rfl
  | cons name names ih =>
    rw [linkRecords, List.flatten_cons, List.length_append, ih, linkRecord, List.length_append, length_recordHead,
      length_padded, linksSize]

theorem linksSize_of_lt {src : Source} (hmtime : src.mtime.toNat < 2 ^ 32) (hdata : src.data.length < 2 ^ 32) :
    ∀ {names : List (List Byte)}, names ≠ [] → linksSize src names =
      (names.map fun name => roundUp (110 + ((skipSlash name).length + 1))).sum + roundUp src.data.length := by
  intro names hne
  have hlast : (BitVec.ofNat 64 src.data.length).toNat < 2 ^ 32 := by
    rwa [BitVec.toNat_ofNat, Nat.mod_eq_of_lt (Nat.lt_trans hdata (by decide))]
  have hzero : roundUp 0 = 0 := rfl
  induction names with
  | nil => exact absurd rfl hne
  | cons name names ih =>
    cases names with
    | nil =>
      simp only [linksSize, List.isEmpty_nil, if_true, headSize_of_lt hmtime hlast, List.map_cons, List.map_nil,
        List.sum_cons, List.sum_nil]
      omega
    | cons name' names =>
      have hother : (BitVec.ofNat 64 0).toNat < 2 ^ 32 := by decide
      rw [linksSize, ih nofun]
      simp only [List.isEmpty_cons, Bool.false_eq_true, if_false, List.length_nil, headSize_of_lt hmtime hother, hzero,
        List.map_cons, List.sum_cons]
      omega

/-- The length of an entry's records, which its number does not change. -/
def Entry.size (mtime : BitVec 64) : Entry → Nat
  | .slink name target _ _ _ =>
    headSize mtime ((strSize target).setWidth 64) (skipSlash name) + roundUp (target.length + 1)
  | .generic name _ _ _ => headSize mtime 0 (skipSlash name)
  | .nod name _ _ _ _ _ _ => headSize mtime 0 (skipSlash name)
  | .file src names _ _ _ => linksSize src names

theorem Entry.length_group (mtime : BitVec 64) (ino : BitVec 32) (e : Entry) :
    (e.group mtime ino).length = e.size mtime := by
  cases e with
  | slink name target mode uid gid =>
    have hbody : (target ++ [0] ++ padding (target.length + 1)).length = roundUp (target.length + 1) := by
      have hlen : target.length + 1 = (target ++ [0]).length := by rw [List.length_append, List.length_singleton]
      rw [hlen, length_padded]
    rw [Entry.group, Entry.records, List.flatten_singleton, List.length_append, length_recordHead, hbody, Entry.size]
  | generic name mode uid gid =>
    rw [Entry.group, Entry.records, List.flatten_singleton, length_recordHead, Entry.size]
  | nod name mode uid gid devType maj min =>
    rw [Entry.group, Entry.records, List.flatten_singleton, length_recordHead, Entry.size]
  | file src names mode uid gid => exact length_linkRecords src ino _ uid gid _ names

end SugarNSpice.Cpio
