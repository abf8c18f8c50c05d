/-
The newc format of cpio archives, as a reader takes it.

A record is six bytes of magic, thirteen fields of eight hexadecimal digits, a
name with its NUL, zero bytes up to a multiple of 4, data, and zero bytes
again. A reader keeps its position in the archive and pads by that, so a
record that does not start at a multiple of 4 is misread. It stops at the
record named `TRAILER!!!`.

`Lays` says when bytes are those of a record, whoever wrote them;
`read_laid` is the rule: an archive of such records reads back as them.
-/
import Mathlib.Data.List.Basic
import Mathlib.Data.List.Forall2

namespace Newc

abbrev Byte := BitVec 8

/-- What a record says. -/
structure Record where
  ino : Nat
  mode : Nat
  uid : Nat
  gid : Nat
  nlink : Nat
  mtime : Nat
  devMajor : Nat
  devMinor : Nat
  rdevMajor : Nat
  rdevMinor : Nat
  name : List Byte
  data : List Byte
  deriving DecidableEq

def magic : List Byte := [48, 55, 48, 55, 48, 49]

def trailerName : List Byte := [84, 82, 65, 73, 76, 69, 82, 33, 33, 33]

/-- A hexadecimal digit. -/
def hexValue (b : Byte) : Option Nat :=
  if 48 ≤ b.toNat ∧ b.toNat ≤ 57 then some (b.toNat - 48)
  else if 65 ≤ b.toNat ∧ b.toNat ≤ 70 then some (b.toNat - 55)
  else if 97 ≤ b.toNat ∧ b.toNat ≤ 102 then some (b.toNat - 87)
  else none

/-- Digits, behind those read so far. -/
def hexNumber (n : Nat) : List Byte → Option Nat
  | [] => some n
  | b :: bs => (hexValue b).bind fun d => hexNumber (16 * n + d) bs

/-- Fields of eight digits. -/
def readFields : Nat → List Byte → Option (List Nat)
  | 0, _ => some []
  | n + 1, bs =>
    if 8 ≤ bs.length then
      (hexNumber 0 (bs.take 8)).bind fun v => (readFields n (bs.drop 8)).map (v :: ·)
    else none

/-- How many bytes are missing to a multiple of 4. -/
def pad (n : Nat) : Nat := (4 - n % 4) % 4

/-- The record at `pos`, where the archive goes on with `bs`, and its length
there. -/
def readRecord (pos : Nat) (bs : List Byte) : Option (Record × Nat) :=
  if bs.take 6 = magic then
    match readFields 13 (bs.drop 6) with
    | some [ino, mode, uid, gid, nlink, mtime, filesize, devMajor, devMinor, rdevMajor, rdevMinor, namesize, _] =>
      let name := (bs.drop 110).take namesize
      let body := 110 + namesize + pad (pos + (110 + namesize))
      let data := (bs.drop body).take filesize
      let length := body + filesize + pad (pos + (body + filesize))
      if length ≤ bs.length ∧ name.getLast? = some 0 ∧ 0 ∉ name.dropLast then
        some (⟨ino, mode, uid, gid, nlink, mtime, devMajor, devMinor, rdevMajor, rdevMinor, name.dropLast, data⟩, length)
      else none
    | _ => none
  else none

/-- The records from `pos` on, each with its position, up to the trailer. -/
def readFrom : (turns pos : Nat) → List Byte → Option (List (Nat × Record))
  | 0, _, _ => none
  | n + 1, pos, bs => (readRecord pos bs).bind fun (r, length) =>
    if r.name = trailerName then some [(pos, r)]
    else (readFrom n (pos + length) (bs.drop length)).map ((pos, r) :: ·)

/-- An archive's records. A record has at least one byte, so there are no more
of them than bytes. -/
def read (archive : List Byte) : Option (List (Nat × Record)) := readFrom archive.length 0 archive

/-! ## Bytes of records -/

/-- Eight digits that stand for a number. -/
def Digits (ds : List Byte) (v : Nat) : Prop := ds.length = 8 ∧ hexNumber 0 ds = some v

theorem readFields_digits {fields : List (List Byte)} {vs : List Nat} (h : List.Forall₂ Digits fields vs)
    (rest : List Byte) : readFields vs.length (fields.flatten ++ rest) = some vs := by
  induction h with
  | nil => rfl
  | @cons ds v fields vs hd _ ih =>
    obtain ⟨hlen, hval⟩ := hd
    rw [List.flatten_cons, List.append_assoc, List.length_cons, readFields, if_pos (by simp [hlen]),
      List.take_left' hlen, List.drop_left' hlen, hval, ih]
    rfl

theorem length_flatten_digits {fields : List (List Byte)} {vs : List Nat} (h : List.Forall₂ Digits fields vs) :
    fields.flatten.length = 8 * vs.length := by
  induction h with
  | nil => rfl
  | cons hd _ ih =>
    rw [List.flatten_cons, List.length_append, ih, hd.1, List.length_cons]
    omega

/-- The numbers of a record's header; the last is a checksum that is not used. -/
def Record.fields (r : Record) : List Nat :=
  [r.ino, r.mode, r.uid, r.gid, r.nlink, r.mtime, r.data.length, r.devMajor, r.devMinor, r.rdevMajor, r.rdevMinor,
    r.name.length + 1, 0]

/-- `bytes` are those of `r`. -/
structure Lays (r : Record) (bytes : List Byte) : Prop where
  nulFree : 0 ∉ r.name
  layout : ∃ fields, List.Forall₂ Digits fields r.fields ∧
    bytes = magic ++ fields.flatten ++ (r.name ++ [0]) ++ List.replicate (pad (110 + (r.name.length + 1))) 0 ++
      (r.data ++ List.replicate (pad r.data.length) 0)

theorem add_pad (n : Nat) : (n + pad n) % 4 = 0 := by
  unfold pad
  omega

theorem pad_add {pos : Nat} (hpos : pos % 4 = 0) (n : Nat) : pad (pos + n) = pad n := by
  unfold pad
  omega

theorem Lays.length_eq {r : Record} {bytes : List Byte} (h : Lays r bytes) :
    bytes.length = 110 + (r.name.length + 1) + pad (110 + (r.name.length + 1)) +
      (r.data.length + pad r.data.length) := by
  obtain ⟨fields, hf, rfl⟩ := h.layout
  have hlen := length_flatten_digits hf
  have hcount : r.fields.length = 13 := rfl
  have hmagic : magic.length = 6 := rfl
  simp only [List.length_append, List.length_replicate, List.length_singleton, hlen, hcount, hmagic]

theorem Lays.length_mod {r : Record} {bytes : List Byte} (h : Lays r bytes) : bytes.length % 4 = 0 := by
  have hhead := add_pad (110 + (r.name.length + 1))
  have hbody := add_pad r.data.length
  rw [h.length_eq]
  omega

/-- **One record** is read back, at a multiple of 4. -/
theorem Lays.readRecord_eq {r : Record} {bytes : List Byte} (h : Lays r bytes) {pos : Nat} (hpos : pos % 4 = 0)
    (rest : List Byte) : readRecord pos (bytes ++ rest) = some (r, bytes.length) := by
  have hlength := h.length_eq
  obtain ⟨fields, hf, hbytes⟩ := h.layout
  have hhead : (magic ++ fields.flatten).length = 110 := by
    rw [List.length_append, length_flatten_digits hf]
    rfl
  have hname : (r.name ++ [0]).length = r.name.length + 1 := List.length_append
  have hmagic : (bytes ++ rest).take 6 = magic := by
    simp only [hbytes, List.append_assoc]
    exact List.take_left' (show magic.length = 6 from rfl)
  have hfields : readFields 13 ((bytes ++ rest).drop 6) = some r.fields := by
    simp only [hbytes, List.append_assoc]
    rw [List.drop_left' (show magic.length = 6 from rfl)]
    exact readFields_digits hf _
  have hdrop : (bytes ++ rest).drop 110 = (r.name ++ [0]) ++
      (List.replicate (pad (110 + (r.name.length + 1))) 0 ++ (r.data ++
        (List.replicate (pad r.data.length) 0 ++ rest))) := by
    rw [hbytes, List.append_assoc, List.append_assoc, List.append_assoc, List.drop_left' hhead]
    simp only [List.append_assoc]
  have hbody : (bytes ++ rest).drop (110 + (r.name.length + 1) + pad (110 + (r.name.length + 1))) =
      r.data ++ (List.replicate (pad r.data.length) 0 ++ rest) := by
    rw [Nat.add_assoc, ← List.drop_drop, hdrop, ← List.append_assoc, List.drop_left']
    rw [List.length_append, hname, List.length_replicate]
  have hpadName : pad (pos + (110 + (r.name.length + 1))) = pad (110 + (r.name.length + 1)) := pad_add hpos _
  have hpadData : pad (pos + (110 + (r.name.length + 1) + pad (110 + (r.name.length + 1)) + r.data.length)) =
      pad r.data.length := by
    rw [pad_add hpos, pad_add (add_pad _)]
  rw [readRecord, if_pos hmagic, hfields]
  simp only [Record.fields, hpadName, hpadData, hdrop, hbody]
  rw [← hname, List.take_left, List.take_left, hname, if_pos]
  · rw [List.dropLast_concat, hlength, Nat.add_assoc (110 + (r.name.length + 1) + _)]
  · refine ⟨?_, List.getLast?_concat, ?_⟩
    · rw [List.length_append, hlength]
      omega
    · rw [List.dropLast_concat]
      exact h.nulFree

theorem readFrom_laid {rs : List Record} {bss : List (List Byte)} (h : List.Forall₂ Lays rs bss)
    (hnames : ∀ r ∈ rs, r.name ≠ trailerName) {t : Record} {bytes : List Byte} (ht : Lays t bytes)
    (htrailer : t.name = trailerName) (rest : List Byte) {turns pos : Nat} (hturns : rs.length < turns)
    (hpos : pos % 4 = 0) :
    ∃ out, readFrom turns pos (bss.flatten ++ (bytes ++ rest)) = some out ∧ out.map Prod.snd = rs ++ [t] ∧
      ∀ x ∈ out, x.1 % 4 = 0 := by
  induction h generalizing turns pos with
  | nil =>
    obtain ⟨n, rfl⟩ : ∃ n, turns = n + 1 := ⟨turns - 1, by omega⟩
    refine ⟨[(pos, t)], ?_, rfl, by simpa using hpos⟩
    rw [List.flatten_nil, List.nil_append, readFrom, ht.readRecord_eq hpos, Option.bind_some]
    exact if_pos htrailer
  | @cons r bs rs bss hr _ ih =>
    obtain ⟨n, rfl⟩ : ∃ n, turns = n + 1 := ⟨turns - 1, by omega⟩
    rw [List.length_cons] at hturns
    have hmod := hr.length_mod
    obtain ⟨out, hout, hmap, hall⟩ := @ih (fun x hx => hnames x (.tail _ hx)) n (pos + bs.length)
      (by omega) (by omega)
    refine ⟨(pos, r) :: out, ?_, by rw [List.map_cons, hmap, List.cons_append], fun x hx => ?_⟩
    · rw [List.flatten_cons, List.append_assoc, readFrom, hr.readRecord_eq hpos, Option.bind_some]
      simp only
      rw [if_neg (hnames r (.head _)), List.drop_left, hout, Option.map_some]
    · rcases List.mem_cons.1 hx with rfl | hx
      · exact hpos
      · exact hall x hx

/-- **An archive reads back**: bytes of records, then those of the trailer, then
anything. -/
theorem read_laid {rs : List Record} {bss : List (List Byte)} (h : List.Forall₂ Lays rs bss)
    (hnames : ∀ r ∈ rs, r.name ≠ trailerName) {t : Record} {bytes : List Byte} (ht : Lays t bytes)
    (htrailer : t.name = trailerName) (rest : List Byte) :
    ∃ out, read (bss.flatten ++ (bytes ++ rest)) = some out ∧ out.map Prod.snd = rs ++ [t] ∧
      ∀ x ∈ out, x.1 % 4 = 0 := by
  refine readFrom_laid h hnames ht htrailer rest ?_ rfl
  have hrecords : rs.length ≤ bss.flatten.length := by
    clear hnames
    induction h with
    | nil => exact Nat.le_refl 0
    | cons hr _ ih =>
      have := hr.length_eq
      rw [List.length_cons, List.flatten_cons, List.length_append]
      omega
  have := ht.length_eq
  rw [List.length_append, List.length_append]
  omega

end Newc
