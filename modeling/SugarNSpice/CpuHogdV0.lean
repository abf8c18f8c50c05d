/-
`cpu_hogd_v0.c`: the same daemon, with a client in the same program.

Called without `-d` the program is a client: it writes a mask and a number of
seconds to the FIFO and ends. The daemon's loop is that of `cpu_hogd.c` but
for how it leaves it. It expects a command word, and the client sends none, so
the first number is taken for it. A `read` takes what there is in the FIFO, up
to 128 bytes: part of what a client wrote, or what several have.
-/
import SugarNSpice.CpuHogdFacts
import SugarNSpice.Bignum

namespace SugarNSpice.CpuHogd

open CLang Cpio Bignum

/-- `sprintf(buf, "%d %d", mask, secs)`, what a client writes. -/
def clientText (mask secs : BitVec 32) : List Byte :=
  ascii (printfInt mask.toInt ++ ' ' :: printfInt secs.toInt)

/-- The daemon and its clients: what is in the FIFO, the daemon unless it has
left its loop or come to a fault, and what it has done. -/
inductive Session (d₀ : Daemon) : List Byte → Outcome (Option Daemon) → List Action → Prop
  | start : Session d₀ [] (.ok (some d₀)) []
  | client {fifo o as} (mask secs : BitVec 32) (before : Session d₀ fifo o as) :
      Session d₀ (fifo ++ clientText mask secs) o as
  | daemon {m rest d as fd a d'} (before : Session d₀ (m.bytes ++ rest) (.ok (some d)) as)
      (turn : iteration d (.read fd m) = .ok (a, d')) : Session d₀ rest (.ok d') (as ++ [a])
  | fault {m rest d as fd f} (before : Session d₀ (m.bytes ++ rest) (.ok (some d)) as)
      (turn : iteration d (.read fd m) = .error f) : Session d₀ rest (.error f) as

/-! ## What clients write -/

/-- The bytes of two numbers: digits, signs and blanks. -/
def Plain (c : Byte) : Prop := c = 32 ∨ c = 45 ∨ (48 ≤ c.toNat ∧ c.toNat ≤ 57)

theorem ascii_printfInt (x : Int) : ascii (printfInt x) =
    if x < 0 then 45 :: ascii (Nat.toDigits 10 x.natAbs) else ascii (Nat.toDigits 10 x.natAbs) := by
  unfold printfInt
  split <;> rfl

theorem toNat_of_mem_toDigits {n : Nat} {ch : Char} (h : ch ∈ Nat.toDigits 10 n) :
    (48 ≤ ch.toNat ∧ ch.toNat ≤ 57) ∧ (BitVec.ofNat 8 ch.toNat).toNat = ch.toNat := by
  have hd := Nat.isDigit_of_mem_toDigits (by simp) (by simp) h
  simp only [Char.isDigit, Bool.and_eq_true, decide_eq_true_eq, UInt32.le_iff_toNat_le] at hd
  have hlt : ch.toNat < 2 ^ 8 := Nat.lt_of_le_of_lt hd.2 (by decide)
  exact ⟨hd, by rw [BitVec.toNat_ofNat, Nat.mod_eq_of_lt hlt]⟩

theorem plain_printfInt (x : Int) : ∀ c ∈ ascii (printfInt x), Plain c ∧ c ≠ 32 := by
  have hdigit : ∀ c ∈ ascii (Nat.toDigits 10 x.natAbs), Plain c ∧ c ≠ 32 := by
    intro c hc
    obtain ⟨ch, hch, rfl⟩ := List.mem_map.1 hc
    obtain ⟨hd, hbyte⟩ := toNat_of_mem_toDigits hch
    rw [← hbyte] at hd
    refine ⟨.inr (.inr hd), fun h => ?_⟩
    rw [h] at hd
    exact absurd hd.1 (by decide)
  rw [ascii_printfInt]
  split
  · exact List.forall_mem_cons.2 ⟨⟨.inr (.inl rfl), by decide⟩, hdigit⟩
  · exact hdigit

theorem length_printfInt (v : BitVec 32) : (ascii (printfInt v.toInt)).length ≤ 11 := by
  have hlen : (ascii (Nat.toDigits 10 v.toInt.natAbs)).length ≤ 10 := by
    have hle := BitVec.le_toInt v
    have hlt := BitVec.toInt_lt (x := v)
    rw [ascii, List.length_map, Nat.length_toDigits_le_iff (by decide) (by decide)]
    omega
  rw [ascii_printfInt]
  split
  · exact Nat.succ_le_succ hlen
  · exact hlen.trans (by decide)

theorem clientText_eq (mask secs : BitVec 32) :
    clientText mask secs = ascii (printfInt mask.toInt) ++ 32 :: ascii (printfInt secs.toInt) := by
  rw [clientText, ascii, List.map_append, List.map_cons]
  rfl

/-- What the clients have written and the daemon has not read: no word is
longer than two numbers, and the last no longer than one. -/
structure Unread (fifo : List Byte) : Prop where
  plain : ∀ c ∈ fifo, Plain c
  word : ∀ w, w <:+: fifo → 32 ∉ w → w.length ≤ 22
  last : ∀ w, w <:+ fifo → 32 ∉ w → w.length ≤ 11

theorem unread_nil : Unread [] := by
  refine ⟨by simp, fun w hw _ => ?_, fun w hw _ => ?_⟩
  · rw [List.infix_nil.1 hw]
    exact Nat.zero_le _
  · rw [List.suffix_nil.1 hw]
    exact Nat.zero_le _

theorem Unread.of_suffix {fifo rest : List Byte} (h : Unread fifo) (hrest : rest <:+ fifo) : Unread rest :=
  ⟨fun c hc => h.plain c (hrest.subset hc), fun w hw => h.word w (hw.trans hrest.isInfix),
    fun w hw => h.last w (hw.trans hrest)⟩

/-- A word does not go on behind a blank. -/
theorem infix_of_blank {w u v : List Byte} (h : w <:+: u ++ 32 :: v) (hw : 32 ∉ w) : w <:+: u ∨ w <:+: v := by
  have hnil : ∀ {l : List Byte}, l <+: 32 :: v → 32 ∉ l → l = [] := by
    intro l hl hno
    rcases List.prefix_cons_iff.1 hl with rfl | ⟨l', rfl, -⟩
    · rfl
    · exact absurd List.mem_cons_self hno
  rcases List.infix_append_iff.1 h with h | h | ⟨l₁, l₂, rfl, h₁, h₂⟩
  · exact .inl h
  · rcases List.infix_cons_iff.1 h with h | h
    · rw [hnil h hw]
      exact .inl List.nil_infix
    · exact .inr h
  · rw [hnil h₂ fun hm => hw (List.mem_append_right _ hm), List.append_nil]
    exact .inl h₁.isInfix

theorem Unread.client {fifo : List Byte} (h : Unread fifo) (mask secs : BitVec 32) :
    Unread (fifo ++ clientText mask secs) := by
  have hmask := plain_printfInt mask.toInt
  have hsecs := plain_printfInt secs.toInt
  have hmaskLen := length_printfInt mask
  have hsecsLen := length_printfInt secs
  rw [clientText_eq, ← List.append_assoc]
  refine ⟨fun c hc => ?_, fun w hw hno => ?_, fun w hw hno => ?_⟩
  · simp only [List.mem_append, List.mem_cons] at hc
    rcases hc with (hc | hc) | rfl | hc
    · exact h.plain c hc
    · exact (hmask c hc).1
    · exact .inl rfl
    · exact (hsecs c hc).1
  · rcases infix_of_blank hw hno with hw | hw
    · rcases List.infix_append_iff.1 hw with hw | hw | ⟨w₁, w₂, rfl, h₁, h₂⟩
      · exact h.word w hw hno
      · have := hw.length_le
        omega
      · have := h.last w₁ h₁ fun hm => hno (List.mem_append_left _ hm)
        have := h₂.length_le
        rw [List.length_append]
        omega
    · have := hw.length_le
      omega
  · rcases List.suffix_or_suffix_of_suffix hw (List.suffix_append _ _) with hw | hw
    · rcases List.suffix_cons_iff.1 hw with rfl | hw
      · exact absurd List.mem_cons_self hno
      · exact hw.length_le.trans hsecsLen
    · exact absurd (hw.subset List.mem_cons_self) hno

/-! ## What the daemon makes of it -/

/-- A word the daemon knows. -/
def IsCommand (w : List Byte) : Prop := w = quitWord ∨ w = jamWord ∨ w = hydraWord

instance instDecidableIsCommand (w : List Byte) : Decidable (IsCommand w) := inferInstanceAs (Decidable (_ ∨ _))

theorem not_isCommand_of_plain {w : List Byte} (h : ∀ c ∈ w, Plain c) : ¬ IsCommand w := by
  have hletter : ∀ c : Byte, 97 ≤ c.toNat → ¬ Plain c := by
    intro c hc h
    rcases h with rfl | rfl | hd
    · simp at hc
    · simp at hc
    · omega
  intro h
  rcases h with rfl | rfl | rfl
  · exact hletter 113 (by simp) (h 113 List.mem_cons_self)
  · exact hletter 106 (by simp) (h 106 List.mem_cons_self)
  · exact hletter 104 (by simp) (h 104 List.mem_cons_self)

theorem isInfix_firstWord (bs : List Byte) : firstWord bs <:+: bs :=
  (List.takeWhile_prefix _).isInfix.trans ((List.dropWhile_suffix _).isInfix.trans (List.takeWhile_prefix _).isInfix)

theorem blank_not_mem_firstWord (bs : List Byte) : 32 ∉ firstWord bs := by
  intro h
  have := List.all_eq_true.1 List.all_takeWhile 32 h
  simp [isSpace] at this

theorem Unread.fits_iff {m : Message} {rest : List Byte} (h : Unread (m.bytes ++ rest)) :
    Fits m.bytes ↔ m.bytes.length < 128 := by
  have hword := h.word (firstWord m.bytes) ((isInfix_firstWord _).trans List.infix_append_left)
    (blank_not_mem_firstWord _)
  exact ⟨fun hfits => hfits.1, fun hlt => ⟨hlt, by omega⟩⟩

theorem respond_unknown {w : List Byte} (h : ¬ IsCommand w) (v : Vars) (s : List Byte) :
    respond v w s = .ok (.nothing, .close, v) := by
  rw [IsCommand, not_or, not_or] at h
  rw [respond, if_neg h.1, if_neg h.2.1, if_neg h.2.2]

/-- The daemon has no command left from before, and its numbers are those it
was started with. -/
structure Idle (d₀ d : Daemon) : Prop where
  word : ¬ IsCommand (text d.vars.cmd.bytes)
  mask : d.vars.mask = d₀.vars.mask
  secs : d.vars.secs = d₀.vars.secs

theorem Idle.iteration {d₀ d : Daemon} {m : Message} {rest : List Byte} (h : Idle d₀ d) (fd : Nat)
    (hunread : Unread (m.bytes ++ rest)) (hlt : m.bytes.length < 128) :
    ∃ d', iteration d (.read fd m) = .ok (.nothing, some d') ∧ Idle d₀ d' := by
  obtain ⟨v, hmask, hsecs, hword, hcommand⟩ := command_eq (v := (d.opened fd).vars) (hunread.fits_iff.2 hlt)
  have hnone : ¬ IsCommand (commandWord (d.opened fd).vars.cmd m.bytes) := by
    rw [commandWord]
    split
    · exact h.word
    · exact not_isCommand_of_plain fun c hc =>
        hunread.plain c (List.mem_append_left _ ((isInfix_firstWord _).subset hc))
  rw [respond_unknown hnone] at hcommand
  have hidle : Idle d₀ (Daemon.closed { d.opened fd with vars := v } fd) := by
    refine ⟨?_, hmask.trans h.mask, hsecs.trans h.secs⟩
    show ¬ IsCommand (text v.cmd.bytes)
    rwa [hword]
  refine ⟨_, ?_, hidle⟩
  rw [CpuHogd.iteration, hcommand, ok_bind]

theorem iteration_bounds {d : Daemon} {fd : Nat} {m : Message} (h : ¬ m.bytes.length < 128) :
    iteration d (.read fd m) = .error .bounds := by
  rw [iteration, command_bounds fun hfits => h hfits.1, error_bind]

/-- **No client gets the daemon to do anything.** Whatever masks and seconds
clients ask for, and however the daemon's reads cut what they write, it forks
no hogger, does not get busy, does not quit, and keeps the numbers it was
started with, unless the stack it finds `cmd` on holds a command. From every
read of at most 127 bytes it comes back to wait for the next; one that fills
`buf` is out of bounds. -/
theorem session_idle {d₀ : Daemon} (hcmd : ¬ IsCommand (text d₀.vars.cmd.bytes)) {fifo : List Byte}
    {o : Outcome (Option Daemon)} {as : List Action} (h : Session d₀ fifo o as) :
    (∀ a ∈ as, a = .nothing) ∧ ∀ o', o = .ok o' →
      ∃ d, o' = some d ∧ d.vars.mask = d₀.vars.mask ∧ d.vars.secs = d₀.vars.secs ∧
        ∀ fd m rest, fifo = m.bytes ++ rest →
          (m.bytes.length < 128 → ∃ d', iteration d (.read fd m) = .ok (.nothing, some d')) ∧
            (¬ m.bytes.length < 128 → iteration d (.read fd m) = .error .bounds) := by
  have hinv : Unread fifo ∧ (∀ a ∈ as, a = .nothing) ∧ ∀ o', o = .ok o' → ∃ d, o' = some d ∧ Idle d₀ d := by
    induction h with
    | start => exact ⟨unread_nil, by simp, fun o' ho => ⟨d₀, (Except.ok.inj ho).symm, hcmd, rfl, rfl⟩⟩
    | client mask secs _ ih => exact ⟨ih.1.client mask secs, ih.2⟩
    | @daemon m rest d as fd a d' _ turn ih =>
      obtain ⟨hunread, hnothing, hrunning⟩ := ih
      obtain ⟨d, hd, hidle⟩ := hrunning _ rfl
      cases hd
      have hlt : m.bytes.length < 128 := by
        by_contra hno
        rw [iteration_bounds hno] at turn
        cases turn
      obtain ⟨d₁, hturn, hnext⟩ := hidle.iteration fd hunread hlt
      cases hturn.symm.trans turn
      refine ⟨hunread.of_suffix (List.suffix_append _ _), fun a ha => ?_, fun o' ho => ⟨d₁, (Except.ok.inj ho).symm, hnext⟩⟩
      rcases List.mem_append.1 ha with ha | ha
      · exact hnothing a ha
      · exact List.mem_singleton.1 ha
    | fault _ _ ih => exact ⟨ih.1.of_suffix (List.suffix_append _ _), ih.2.1, fun o' ho => by cases ho⟩
  obtain ⟨hunread, hnothing, hrunning⟩ := hinv
  refine ⟨hnothing, fun o' ho => ?_⟩
  obtain ⟨d, hd, hidle⟩ := hrunning o' ho
  refine ⟨d, hd, hidle.mask, hidle.secs, fun fd m rest hm => ⟨fun hlt => ?_, fun hno => iteration_bounds hno⟩⟩
  subst hm
  obtain ⟨d', hturn, -⟩ := hidle.iteration fd hunread hlt
  exact ⟨d', hturn⟩

/-- Two clients have written, and the daemon has read one and a half of them. -/
theorem session_idle_sample :
    let d₀ := CpuHogd.start (nuls 128) (nuls 32)
    ∃ o a, Session d₀ (ascii ['0', '1', ' ', '5']) (.ok o) [a] ∧ a = .nothing ∧ o.isSome = true := by
  intro d₀
  have hword : ¬ IsCommand (text d₀.vars.cmd.bytes) := by decide
  let m : Message := ⟨ascii ['3', ' ', '6'], by decide⟩
  have hsession : Session d₀ (m.bytes ++ ascii ['0', '1', ' ', '5']) (.ok (some d₀)) [] :=
    .client 1 5 (.client 3 60 .start)
  obtain ⟨d, hd, -, -, hreads⟩ := (session_idle hword hsession).2 _ rfl
  cases hd
  obtain ⟨d', hturn⟩ := (hreads 3 m _ rfl).1 (by decide)
  have hnext := hsession.daemon hturn
  obtain ⟨hnothing, hrunning⟩ := session_idle hword hnext
  obtain ⟨d'', hd, -⟩ := hrunning _ rfl
  exact ⟨_, _, hnext, hnothing _ List.mem_cons_self, by rw [hd]; rfl⟩

end SugarNSpice.CpuHogd
