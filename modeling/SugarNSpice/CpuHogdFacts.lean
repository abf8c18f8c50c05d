/-
The daemon's parsing, and its descriptors.

`command_eq` says what an iteration does in terms of the message and the
variables it finds: the word it acts on (`commandWord`) and what the skip
leaves (`argument`) are functions of the bytes. What becomes of the descriptor
is case analysis of that.
-/
import SugarNSpice.CpuHogd
import Mathlib.Data.List.Induction

namespace SugarNSpice.CpuHogd

open CLang Cpio

/-! ## Strings -/

/-- The bytes up to the first NUL. -/
def text (bs : List Byte) : List Byte := bs.takeWhile (· ≠ 0)

@[simp] theorem text_nil : text [] = [] := rfl

theorem text_cons (c : Byte) (cs : List Byte) : text (c :: cs) = if c = 0 then [] else c :: text cs := by
  by_cases hc : c = 0#8 <;> simp [text, hc]

theorem nul_not_mem_text (bs : List Byte) : 0 ∉ text bs := by
  induction bs with
  | nil => simp
  | cons c cs ih =>
    rw [text_cons]
    split
    · simp
    next hc => exact List.not_mem_cons_of_ne_of_not_mem (Ne.symm hc) ih

theorem text_append_nul {s : List Byte} (h : 0 ∉ s) (rest : List Byte) : text (s ++ 0 :: rest) = s := by
  induction s with
  | nil => simp [text]
  | cons c s ih =>
    obtain ⟨hc, hs⟩ := not_or.1 (List.mem_cons.not.1 h)
    rw [List.cons_append, text_cons, if_neg (Ne.symm hc), ih hs]

theorem str_append_nul (bs rest : List Byte) : str (bs ++ 0 :: rest) = .ok (text bs) := by
  induction bs with
  | nil => simp [str]
  | cons c bs ih =>
    rw [List.cons_append, str, ih, ok_bind, text_cons]
    split <;> rfl

theorem strcmpEq_text {w : List Byte} (hw : 0 ∉ w) :
    ∀ {u : List Byte}, w.length < u.length → strcmpEq u (w ++ [0]) = .ok (decide (text u = w)) := by
  induction w with
  | nil =>
    intro u hu
    obtain ⟨c, cs, rfl⟩ := List.exists_cons_of_length_pos hu
    by_cases hc : c = 0#8 <;> simp [strcmpEq, text_cons, hc]
  | cons d w ih =>
    intro u hu
    obtain ⟨hd, hw'⟩ := not_or.1 (List.mem_cons.not.1 hw)
    cases u with
    | nil => simp at hu
    | cons c cs =>
      simp only [List.length_cons, Nat.add_lt_add_iff_right] at hu
      by_cases hcd : c = d
      · subst hcd
        rw [List.cons_append, strcmpEq, if_neg (by simp), if_neg (Ne.symm hd), ih hw' hu, text_cons,
          if_neg (Ne.symm hd)]
        simp
      · have hne : text (c :: cs) ≠ d :: w := by
          intro heq
          rw [text_cons] at heq
          split at heq
          · cases heq
          · exact hcd (List.cons.inj heq).1
        rw [List.cons_append, strcmpEq, if_pos hcd, decide_eq_false hne]

/-! ## Parsing -/

def firstWord (bs : List Byte) : List Byte := scanWord (text bs)

/-- What follows the first blank of a message. -/
def argument (bs : List Byte) : List Byte := ((text bs).dropWhile (· ≠ 32)).drop 1

theorem nul_not_mem_firstWord (bs : List Byte) : 0 ∉ firstWord bs := by
  intro h
  have hmem := (List.takeWhile_sublist _).subset h
  exact nul_not_mem_text bs ((List.dropWhile_suffix _).subset hmem)

theorem argument_cons (c : Byte) (cs : List Byte) :
    argument (c :: cs) = if c = 0 then [] else if c = 32 then text cs else argument cs := by
  by_cases hc : c = 0#8
  · simp [argument, text_cons, hc]
  · by_cases hb : c = 32#8 <;> simp [argument, text_cons, hc, hb]

theorem write_put (buf : Chars 128) {m : Message} (h : m.bytes.length < 128) :
    ∃ buf' rest, (buf.write m.bytes >>= fun b => b.put m.bytes.length 0) = .ok buf' ∧
      buf'.bytes = m.bytes ++ 0 :: rest := by
  have hwrite : buf.write m.bytes = .ok ⟨m.bytes ++ buf.bytes.drop m.bytes.length, _⟩ := dif_pos m.length_le
  rw [hwrite, ok_bind]
  refine ⟨_, buf.bytes.drop (m.bytes.length + 1), if_pos h, ?_⟩
  show (m.bytes ++ buf.bytes.drop m.bytes.length).set m.bytes.length 0 = _
  have hlt : m.bytes.length < buf.bytes.length := by rw [buf.length_eq]; exact h
  rw [List.set_append_right _ _ (Nat.le_refl _), Nat.sub_self, List.drop_eq_getElem_cons hlt, List.set_cons_zero]

/-- The skip is inside the message, and has not come to a blank. -/
def Skipping (bs : List Byte) (p : Nat) : Prop := p ≤ bs.length ∧ argument (bs.drop p) = argument bs

/-- It stops at the argument. -/
def Skipped (bs : List Byte) (p : Nat) : Prop := p ≤ bs.length ∧ text (bs.drop p) = argument bs

theorem skipTurn_skipping (bs rest : List Byte) (p : Nat) (h : Skipping bs p) :
    (∃ p', skipTurn (bs ++ 0 :: rest) bs.length p = .ok (.next p') ∧ Skipping bs p' ∧
        bs.length - p' < bs.length - p) ∨
      ∃ p', skipTurn (bs ++ 0 :: rest) bs.length p = .ok (.done p') ∧ Skipped bs p' := by
  obtain ⟨hle, harg⟩ := h
  rcases Nat.eq_or_lt_of_le hle with rfl | hlt
  · refine .inr ⟨bs.length, ?_, Nat.le_refl _, ?_⟩
    · simp [skipTurn, load]
    · simpa [argument] using harg
  have hload : load (bs ++ 0 :: rest) p = .ok bs[p] := by
    rw [load_ok_iff, List.getElem?_append_left hlt, List.getElem?_eq_getElem hlt]
  rw [List.drop_eq_getElem_cons hlt, argument_cons] at harg
  by_cases hc : bs[p] = 0
  · refine .inr ⟨p, by rw [skipTurn, hload, ok_bind, if_neg (by simp [hc])], hle, ?_⟩
    rw [List.drop_eq_getElem_cons hlt, text_cons, if_pos hc]
    rwa [if_pos hc] at harg
  rw [if_neg hc] at harg
  by_cases hb : bs[p] = 32
  · refine .inr ⟨p + 1, by rw [skipTurn, hload, ok_bind, if_pos ⟨hc, hlt⟩, if_neg (by simp [hb])], hlt, ?_⟩
    rwa [if_pos hb] at harg
  · refine .inl ⟨p + 1, by rw [skipTurn, hload, ok_bind, if_pos ⟨hc, hlt⟩, if_pos hb], ⟨hlt, ?_⟩, by omega⟩
    rwa [if_neg hb] at harg

theorem skip_spec (bs rest : List Byte) :
    ∃ p, loop (skipTurn (bs ++ 0 :: rest) bs.length) (bs.length + 1) 0 = .ok p ∧
      str ((bs ++ 0 :: rest).drop p) = .ok (argument bs) := by
  obtain ⟨p, hp, hle, htext⟩ := loop_total (fun p => bs.length - p) (skipTurn_skipping bs rest)
    ⟨Nat.zero_le _, rfl⟩ (Nat.lt_succ_self _)
  refine ⟨p, hp, ?_⟩
  rw [List.drop_append_of_le_length hle, str_append_nul, htext]

/-- The word an iteration acts on: the message's first, or the last one there
was. -/
def commandWord (cmd : Chars 32) (bs : List Byte) : List Byte :=
  if firstWord bs = [] then text cmd.bytes else firstWord bs

theorem sscanfWord_spec (cmd : Chars 32) {bs : List Byte} (h : (firstWord bs).length < 32) :
    ∃ cmd', sscanfWord (text bs) cmd = .ok cmd' ∧ text cmd'.bytes = commandWord cmd bs := by
  by_cases hw : firstWord bs = []
  · exact ⟨cmd, if_pos hw, by rw [commandWord, if_pos hw]⟩
  · have hlen : (firstWord bs ++ [0]).length ≤ 32 := by
      rw [List.length_append, List.length_singleton]
      omega
    refine ⟨_, (if_neg hw).trans (dif_pos hlen), ?_⟩
    rw [commandWord, if_neg hw]
    simpa [firstWord] using text_append_nul (nul_not_mem_firstWord bs) _

/-- A message that fits: room for the NUL after it, and for that after its
first word. -/
def Fits (bs : List Byte) : Prop := bs.length < 128 ∧ (firstWord bs).length < 32

theorem parse_spec (buf : Chars 128) (cmd : Chars 32) {m : Message} (h : Fits m.bytes) :
    ∃ buf' cmd' p, parse buf cmd m = .ok (buf', cmd', p) ∧ text cmd'.bytes = commandWord cmd m.bytes ∧
      str (buf'.bytes.drop p) = .ok (argument m.bytes) := by
  obtain ⟨buf', rest, hbuf, hbytes⟩ := write_put buf h.1
  obtain ⟨cmd', hcmd, hword⟩ := sscanfWord_spec cmd h.2
  obtain ⟨p, hskip, harg⟩ := skip_spec m.bytes rest
  obtain ⟨b, hb, hput⟩ := bind_ok_iff.1 hbuf
  refine ⟨buf', cmd', p, ?_, hword, by rw [hbytes, harg]⟩
  simp only [parse, hb, hput, hbytes, str_append_nul, hcmd, hskip, ok_bind]

/-- Without the room, an array is left: `buf` by the NUL, or `cmd` by the
word. -/
theorem parse_bounds (buf : Chars 128) (cmd : Chars 32) {m : Message} (h : ¬ Fits m.bytes) :
    parse buf cmd m = .error .bounds := by
  have hwrite : buf.write m.bytes = .ok ⟨m.bytes ++ buf.bytes.drop m.bytes.length, _⟩ := dif_pos m.length_le
  by_cases hlt : m.bytes.length < 128
  · obtain ⟨buf', rest, hbuf, hbytes⟩ := write_put buf hlt
    obtain ⟨b, hb, hput⟩ := bind_ok_iff.1 hbuf
    have hlong : ¬ (firstWord m.bytes).length < 32 := fun hw => h ⟨hlt, hw⟩
    have hne : ¬ scanWord (text m.bytes) = [] := by
      intro hnil
      simp [firstWord, hnil] at hlong
    have hcmd : sscanfWord (text m.bytes) cmd = .error .bounds := by
      rw [sscanfWord, if_neg hne]
      refine dif_neg ?_
      rw [List.length_append, List.length_singleton]
      exact fun hle => hlong hle
    simp only [parse, hb, hput, hbytes, str_append_nul, hcmd, ok_bind, error_bind]
  · have hput : ∀ b : Chars 128, b.put m.bytes.length 0 = .error .bounds := fun b => if_neg hlt
    simp only [parse, hwrite, hput, ok_bind, error_bind]

/-- **When parsing is in bounds.** Whatever `buf` and `cmd` held, the NUL, the
command word with its own and the skip stay inside the two arrays exactly when
the message leaves room for a NUL in `buf` and its first word leaves room for
one in `cmd`; otherwise an access is out of bounds. -/
theorem parse_inBounds_iff (buf : Chars 128) (cmd : Chars 32) (m : Message) :
    ((∃ r, parse buf cmd m = .ok r) ↔ m.bytes.length ≤ 127 ∧ (firstWord m.bytes).length ≤ 31) ∧
      (¬ (∃ r, parse buf cmd m = .ok r) → parse buf cmd m = .error .bounds) := by
  have hfits : Fits m.bytes ↔ m.bytes.length ≤ 127 ∧ (firstWord m.bytes).length ≤ 31 := by
    unfold Fits
    omega
  by_cases h : Fits m.bytes
  · obtain ⟨buf', cmd', p, hparse, -⟩ := parse_spec buf cmd h
    have hok : ∃ r, parse buf cmd m = .ok r := ⟨_, hparse⟩
    exact ⟨iff_of_true hok (hfits.1 h), fun hno => absurd hok hno⟩
  · have hbounds := parse_bounds buf cmd h
    exact ⟨iff_of_false (by simp [hbounds]) fun hle => h (hfits.2 hle), fun _ => hbounds⟩

def nuls (n : Nat) : Chars n := ⟨List.replicate n 0, List.length_replicate ..⟩

def letters (n : Nat) (h : n ≤ 128) : Message := ⟨List.replicate n 120, by simpa using h⟩

/-- A full read has its NUL stored behind `buf`, and a word of 32 letters its
own behind `cmd`. -/
theorem parse_overruns :
    parse (nuls 128) (nuls 32) (letters 128 (by decide)) = .error .bounds ∧
      parse (nuls 128) (nuls 32) (letters 32 (by decide)) = .error .bounds := by
  have hword : (firstWord (letters 32 (by decide)).bytes).length = 32 := by decide
  refine ⟨parse_bounds _ _ fun h => ?_, parse_bounds _ _ fun h => ?_⟩
  · simpa [letters] using h.1
  · have := h.2
    omega

/-! ## One iteration -/

/-- What an iteration does for a word and its argument. -/
def respond (v : Vars) (w s : List Byte) : Outcome (Action × Exit × Vars) :=
  if w = quitWord then .ok (.quit, .quit, v)
  else if w = jamWord then .ok (jam v s)
  else if w = hydraWord then hydra v s
  else .ok (.nothing, .close, v)

theorem strcmpEq_cmd (cmd : Chars 32) {w : List Byte} (hw : 0 ∉ w) (hlen : w.length < 32) :
    strcmpEq cmd.bytes (w ++ [0]) = .ok (decide (text cmd.bytes = w)) :=
  strcmpEq_text hw (by rwa [cmd.length_eq])

theorem dispatch_eq {v : Vars} {p : Nat} {s : List Byte} (hs : str (v.buf.bytes.drop p) = .ok s) :
    dispatch v p = respond v (text v.cmd.bytes) s := by
  have hquit := strcmpEq_cmd v.cmd (w := quitWord) (by decide) (by decide)
  have hjam := strcmpEq_cmd v.cmd (w := jamWord) (by decide) (by decide)
  have hhydra := strcmpEq_cmd v.cmd (w := hydraWord) (by decide) (by decide)
  simp only [dispatch, respond, hquit, hjam, hhydra, hs, ok_bind, decide_eq_true_eq]

/-- **An iteration**, when the message fits: the numbers it starts with are the
old ones, and the word is the message's, if it has one. -/
theorem command_eq {v : Vars} {m : Message} (h : Fits m.bytes) :
    ∃ v', v'.mask = v.mask ∧ v'.secs = v.secs ∧ text v'.cmd.bytes = commandWord v.cmd m.bytes ∧
      command v m = respond v' (commandWord v.cmd m.bytes) (argument m.bytes) := by
  obtain ⟨buf, cmd, p, hparse, hword, harg⟩ := parse_spec v.buf v.cmd h
  refine ⟨{ v with buf := buf, cmd := cmd }, rfl, rfl, hword, ?_⟩
  rw [command, hparse, ok_bind]
  exact (dispatch_eq harg).trans (by rw [hword])

theorem command_bounds {v : Vars} {m : Message} (h : ¬ Fits m.bytes) : command v m = .error .bounds := by
  rw [command, parse_bounds _ _ h, error_bind]

/-- The processors a mask stands for: the bits set among its low four, unless
it is 16 or more. -/
def hoggers (mask : BitVec 32) : List Nat :=
  if mask.toInt < 16 then (List.range 4).filter fun i => mask.getLsbD i else []

/-- The loop over the mask has looked at the bits below `cpu`. -/
structure Shifted (mask : BitVec 32) (s : Hydra) : Prop where
  le : s.cpu ≤ 4
  small : s.cpu = 0 ∨ mask.toInt < 16
  mask_eq : s.mask = mask.sshiftRight s.cpu
  hogged_eq : s.hogged = (List.range s.cpu).filter fun i => mask.getLsbD i

theorem Shifted.lastBit {mask : BitVec 32} {s : Hydra} (h : Shifted mask s) (hcpu : s.cpu < 4) :
    s.mask &&& 1 = 0 ↔ mask.getLsbD s.cpu = false := by
  have hbit : s.mask.getLsbD 0 = mask.getLsbD s.cpu := by
    rw [h.mask_eq, BitVec.getLsbD_sshiftRight]
    simp [show s.cpu < 32 by omega]
  have hand : s.mask &&& 1 = BitVec.setWidth 32 (BitVec.ofBool (s.mask.getLsbD 0)) :=
    BitVec.and_one_eq_setWidth_ofBool_getLsbD
  rw [hand, hbit]
  cases mask.getLsbD s.cpu <;> decide

theorem toInt_sshiftRight_lt {mask : BitVec 32} (h : mask.toInt < 16) (k : Nat) : (mask.sshiftRight k).toInt < 16 := by
  rw [BitVec.toInt_sshiftRight, Int.shiftRight_eq_div_pow]
  have hpos : (0 : Int) < ((2 ^ k : Nat) : Int) := by positivity
  exact Int.ediv_lt_of_lt_mul hpos (by omega)

theorem filter_range_of_unset {p : Nat → Bool} {k n : Nat} (hk : k ≤ n) (h : ∀ i, k + i < n → p (k + i) = false) :
    (List.range n).filter p = (List.range k).filter p := by
  have hrange : List.range n = List.range k ++ (List.range (n - k)).map (k + ·) := by
    rw [← List.range_add, Nat.add_sub_cancel' hk]
  have hnone : ((List.range (n - k)).map (k + ·)).filter p = [] := by
    rw [List.filter_eq_nil_iff]
    intro j hj
    obtain ⟨i, hi, rfl⟩ := List.mem_map.1 hj
    have := List.mem_range.1 hi
    simp [h i (by omega)]
  rw [hrange, List.filter_append, hnone, List.append_nil]

/-- The loop stops with all bits looked at: the ones left are not set. -/
theorem Shifted.done {mask : BitVec 32} {s : Hydra} (h : Shifted mask s)
    (hstop : ¬ (s.mask.toInt < 16 ∧ s.mask ≠ 0 ∧ s.cpu < 4)) : s.hogged = hoggers mask := by
  rw [h.hogged_eq, hoggers]
  by_cases hmask : mask.toInt < 16
  · rw [if_pos hmask, filter_range_of_unset h.le]
    intro i hi
    have hzero : mask.sshiftRight s.cpu = 0 := by
      by_contra hne
      rw [← h.mask_eq] at hne
      exact hstop ⟨h.mask_eq ▸ toInt_sshiftRight_lt hmask s.cpu, hne, by omega⟩
    have hbit : (mask.sshiftRight s.cpu).getLsbD i = false := by
      rw [hzero]
      exact BitVec.getLsbD_zero
    rwa [BitVec.getLsbD_sshiftRight, if_pos (by omega), decide_eq_false (by omega), Bool.not_false,
      Bool.true_and] at hbit
  · -- Such a mask has the loop stop before its first turn.
    rw [if_neg hmask, h.small.resolve_right hmask]
    rfl

theorem hydraTurn_shifted (mask : BitVec 32) (s : Hydra) (h : Shifted mask s) :
    (∃ s', hydraTurn s = .ok (.next s') ∧ Shifted mask s' ∧ 4 - s'.cpu < 4 - s.cpu) ∨
      ∃ s', hydraTurn s = .ok (.done s') ∧ s'.hogged = hoggers mask := by
  by_cases hgo : s.mask.toInt < 16 ∧ s.mask ≠ 0 ∧ s.cpu < 4
  · have hcpu := hgo.2.2
    have hsmall : mask.toInt < 16 := by
      rcases h.small with h0 | hlt
      · have hmask := h.mask_eq
        rw [h0, BitVec.sshiftRight_zero] at hmask
        exact hmask ▸ hgo.1
      · exact hlt
    have hshift : s.mask.sshiftRight 1 = mask.sshiftRight (s.cpu + 1) := by
      rw [h.mask_eq, BitVec.sshiftRight_add]
    have hrange : (List.range (s.cpu + 1)).filter (fun i => mask.getLsbD i) =
        s.hogged ++ [s.cpu].filter fun i => mask.getLsbD i := by
      rw [h.hogged_eq, List.range_succ, List.filter_append]
    simp only [hydraTurn, if_pos hgo]
    by_cases hbit : s.mask &&& 1 = 0
    · refine .inl ⟨_, if_pos hbit, ⟨hcpu, .inr hsmall, hshift, ?_⟩, by simp only; omega⟩
      simp [hrange, (h.lastBit hcpu).1 hbit]
    · refine .inl ⟨_, if_neg hbit, ⟨hcpu, .inr hsmall, hshift, ?_⟩, by simp only; omega⟩
      have hset : mask.getLsbD s.cpu = true := by
        rw [← Bool.not_eq_false]
        exact fun hf => hbit ((h.lastBit hcpu).2 hf)
      simp [hrange, hset]
  · exact .inr ⟨s, if_neg hgo, h.done hgo⟩

/-- **The loop over the mask** ends, with a hogger on each processor the mask
stands for. -/
theorem hydra_loop (mask : BitVec 32) : ∃ s, loop hydraTurn 5 ⟨mask, 0, []⟩ = .ok s ∧ s.hogged = hoggers mask :=
  loop_total (fun s : Hydra => 4 - s.cpu) (hydraTurn_shifted mask)
    ⟨Nat.zero_le 4, .inl rfl, BitVec.sshiftRight_zero.symm, rfl⟩ (by simp)

/-- Numbers for which `hydra` takes the `continue`: neither is -1, and the
seconds are over 100. -/
def Skips (mask secs : BitVec 32) : Prop := mask ≠ -1 ∧ secs ≠ -1 ∧ 100 < secs.toInt

theorem hydra_cases {v : Vars} {s : List Byte} {mask secs : BitVec 32}
    (h : sscanfHydra s v.mask v.secs = (mask, secs)) :
    ((mask = -1 ∨ secs = -1) ∧ hydra v s = .ok (.quit, .quit, { v with mask := mask, secs := secs })) ∨
    (Skips mask secs ∧ hydra v s = .ok (.nothing, .skip, { v with mask := mask, secs := secs })) ∨
    ((¬ (mask = -1 ∨ secs = -1) ∧ secs.toInt ≤ 100) ∧ ∃ mask', hydra v s =
      .ok (if hoggers mask = [] then .nothing else .fork (hoggers mask) secs, .close,
        { v with mask := mask', secs := secs })) := by
  simp only [hydra, h]
  by_cases hneg : mask = -1 ∨ secs = -1
  · exact .inl ⟨hneg, if_pos hneg⟩
  · rw [if_neg hneg]
    by_cases hlong : 100 < secs.toInt
    · exact .inr (.inl ⟨⟨fun hm => hneg (.inl hm), fun hs => hneg (.inr hs), hlong⟩, if_pos hlong⟩)
    · obtain ⟨l, hl, hhogged⟩ := hydra_loop mask
      refine .inr (.inr ⟨⟨hneg, by omega⟩, l.mask, ?_⟩)
      rw [if_neg hlong, hl, ok_bind, hhogged]

theorem respond_total (v : Vars) (w s : List Byte) : ∃ r, respond v w s = .ok r := by
  unfold respond
  split
  · exact ⟨_, rfl⟩
  split
  · exact ⟨_, rfl⟩
  split
  · obtain ⟨-, h⟩ | ⟨-, h⟩ | ⟨-, mask, h⟩ := hydra_cases (v := v) (s := s) Prod.mk.eta.symm <;> exact ⟨_, h⟩
  · exact ⟨_, rfl⟩

/-! ## Descriptors -/

/-- Only `hydra` takes the `continue`, and only for such numbers. -/
theorem respond_skip {v v' : Vars} {w s : List Byte} {a : Action} {how : Exit} (h : respond v w s = .ok (a, how, v')) :
    how = .skip ↔
      w = hydraWord ∧ Skips (sscanfHydra s v.mask v.secs).1 (sscanfHydra s v.mask v.secs).2 := by
  unfold respond at h
  split at h
  next hw => subst hw; cases h; simp [quitWord, hydraWord, ascii]
  split at h
  next hw => subst hw; cases h; simp [jamWord, hydraWord, ascii]
  split at h
  next hw =>
    obtain ⟨hneg, hcase⟩ | ⟨hskip, hcase⟩ | ⟨hshort, mask, hcase⟩ :=
      hydra_cases (v := v) (s := s) Prod.mk.eta.symm
    · rw [hcase] at h
      cases h
      exact iff_of_false (by simp) fun hs => hneg.elim hs.2.1 hs.2.2.1
    · rw [hcase] at h
      cases h
      exact iff_of_true rfl ⟨hw, hskip⟩
    · rw [hcase] at h
      cases h
      exact iff_of_false (by simp) fun hs => absurd hs.2.2.2 (not_lt.2 hshort.2)
  next hw => cases h; simp [hw]

/-- The message makes the daemon take the `continue`. -/
def TooLong (v : Vars) (m : Message) : Prop :=
  Fits m.bytes ∧ commandWord v.cmd m.bytes = hydraWord ∧
    Skips (sscanfHydra (argument m.bytes) v.mask v.secs).1 (sscanfHydra (argument m.bytes) v.mask v.secs).2

theorem command_skip {v v' : Vars} {m : Message} {a : Action} {how : Exit} (h : command v m = .ok (a, how, v')) :
    how = .skip ↔ TooLong v m := by
  by_cases hfits : Fits m.bytes
  · obtain ⟨v₁, hmask, hsecs, -, hcommand⟩ := command_eq (v := v) hfits
    rw [hcommand] at h
    rw [respond_skip h, hmask, hsecs]
    exact ⟨fun hs => ⟨hfits, hs⟩, fun hs => hs.2⟩
  · rw [command_bounds hfits] at h
    cases h

/-- **One iteration's descriptor**: the daemon goes on without it, unless the
message was too long. -/
theorem iteration_fds {d d' : Daemon} {e : Event} {a : Action} (h : iteration d e = .ok (a, some d')) :
    ∃ fd m, e = .read fd m ∧ (TooLong d.vars m → d'.fds = fd :: d.fds) ∧ (¬ TooLong d.vars m → d'.fds = d.fds) := by
  cases e with
  | openFails => cases h
  | readFails fd => cases h
  | read fd m =>
    obtain ⟨⟨a₁, how, v⟩, hcommand, hend⟩ := bind_ok_iff.1 h
    have hskip := command_skip hcommand
    refine ⟨fd, m, rfl, fun hlong => ?_, fun hlong => ?_⟩
    · cases hskip.2 hlong
      cases hend
      rfl
    · cases how with
      | quit => cases hend
      | skip => exact absurd (hskip.1 rfl) hlong
      | close =>
        cases hend
        exact List.erase_cons_head ..

theorem iteration_tooLong {d : Daemon} {m : Message} (h : TooLong d.vars m) (fd : Nat) :
    ∃ a d', iteration d (.read fd m) = .ok (a, some d') := by
  obtain ⟨v₁, -, -, -, hcommand⟩ := command_eq (v := d.vars) h.1
  obtain ⟨⟨a, how, v⟩, hrespond⟩ := respond_total v₁ (commandWord d.vars.cmd m.bytes) (argument m.bytes)
  rw [hrespond] at hcommand
  cases (command_skip hcommand).2 h
  refine ⟨a, { d.opened fd with vars := v }, ?_⟩
  simp only [iteration, Daemon.opened, hcommand, ok_bind]

theorem run_concat {d d'' : Daemon} {es : List Event} {e : Event} :
    run d (es ++ [e]) = .ok (some d'') ↔
      ∃ d' a, run d es = .ok (some d') ∧ iteration d' e = .ok (a, some d'') := by
  induction es generalizing d with
  | nil =>
    simp only [List.nil_append, run, bind_ok_iff]
    constructor
    · intro h
      obtain ⟨⟨a, _ | d₁⟩, hit, hend⟩ := h
      · cases hend
      · cases hend
        exact ⟨d, a, rfl, hit⟩
    · intro h
      obtain ⟨d', a, hd, hit⟩ := h
      cases hd
      exact ⟨_, hit, rfl⟩
  | cons e₁ es ih =>
    simp only [List.cons_append, run, bind_ok_iff]
    constructor
    · intro h
      obtain ⟨⟨a, _ | d₁⟩, hit, hend⟩ := h
      · cases hend
      · obtain ⟨d', a', hrun, hlast⟩ := ih.1 hend
        exact ⟨d', a', ⟨_, hit, hrun⟩, hlast⟩
    · intro h
      obtain ⟨d', a', ⟨⟨a, _ | d₁⟩, hit, hend⟩, hlast⟩ := h
      · cases hend
      · exact ⟨_, hit, ih.2 ⟨d', a', hend, hlast⟩⟩

/-- All descriptors are closed, so that the next one is the only one. -/
def Daemon.Closed (d : Daemon) : Prop := d.fds = [] ∧ ∀ fd, (d.opened fd).fds.length ≤ 1

theorem Daemon.closed_iff {d : Daemon} : d.Closed ↔ d.fds = [] := by
  refine ⟨fun h => h.1, fun h => ⟨h, fun fd => ?_⟩⟩
  simp [Daemon.opened, h]

/-- **When no descriptor is left open.** Over any messages, and whatever the
arrays held at first: each time the loop is back at its top, every descriptor
opened on the FIFO is closed, exactly when no message of the run that reaches
it makes the daemon take the `continue` of `hydra`. -/
theorem run_closed_iff (buf : Chars 128) (cmd : Chars 32) (es : List Event) :
    (∀ es' d, es' <+: es → run (start buf cmd) es' = .ok (some d) → d.Closed) ↔
      ∀ es' fd m d, es' ++ [.read fd m] <+: es → run (start buf cmd) es' = .ok (some d) → ¬ TooLong d.vars m := by
  constructor
  · intro hclosed es' fd m d hpre hrun hlong
    obtain ⟨a, d', hit⟩ := iteration_tooLong hlong fd
    obtain ⟨fd', m', heq, hfds, -⟩ := iteration_fds hit
    cases heq
    have hnil := (hclosed _ d' hpre (run_concat.2 ⟨d, a, hrun, hit⟩)).1
    rw [hfds hlong] at hnil
    cases hnil
  · intro hshort es'
    induction es' using List.reverseRecOn with
    | nil =>
      intro d _ hrun
      cases hrun
      exact Daemon.closed_iff.2 rfl
    | append_singleton es' e ih =>
      intro d hpre hrun
      obtain ⟨d', a, hrun', hit⟩ := run_concat.1 hrun
      obtain ⟨fd, m, rfl, -, hfds⟩ := iteration_fds hit
      have hclosed := ih d' ((List.prefix_append ..).trans hpre) hrun'
      rw [Daemon.closed_iff, hfds (hshort es' fd m d' hpre hrun')]
      exact hclosed.1

def message (cs : List Char) (h : cs.length ≤ 128) : Message := ⟨ascii cs, by simpa [ascii] using h⟩

theorem hydra_101_tooLong (buf : Chars 128) (cmd : Chars 32) :
    TooLong (start buf cmd).vars (message ['h', 'y', 'd', 'r', 'a', ' ', '1', ' ', '1', '0', '1'] (by decide)) := by
  have hword : firstWord (ascii ['h', 'y', 'd', 'r', 'a', ' ', '1', ' ', '1', '0', '1']) = hydraWord := by decide
  refine ⟨⟨by decide, ?_⟩, ?_, ?_⟩
  · rw [message, hword]
    decide
  · rw [message, commandWord, hword, if_neg (by decide)]
  · simp only [message, start, Skips]
    decide

/-- `hydra 1 101`: the daemon is back at its top with the descriptor open. -/
theorem run_leaks :
    ∃ d, run (start (nuls 128) (nuls 32))
      [.read 3 (message ['h', 'y', 'd', 'r', 'a', ' ', '1', ' ', '1', '0', '1'] (by decide))] = .ok (some d) ∧
        ¬ d.Closed := by
  have hlong := hydra_101_tooLong (nuls 128) (nuls 32)
  obtain ⟨a, d, hit⟩ := iteration_tooLong hlong 3
  obtain ⟨fd, m, heq, hfds, -⟩ := iteration_fds hit
  cases heq
  refine ⟨d, ?_, fun hclosed => ?_⟩
  · rw [run, hit, ok_bind]
    rfl
  · rw [Daemon.closed_iff, hfds hlong] at hclosed
    cases hclosed

end SugarNSpice.CpuHogd
