/-
What a client of the daemon can rely on.

A command is a word and its numbers, as `printf` writes them. The daemon reads
them back (`scanInt_printfInt`) and does what they say, whatever it was told
before; of a read with more than one command in it, it carries out the first
and drops the rest (`answers_carriedOut`).
-/
import SugarNSpice.CpuHogdHistoryFacts
import SugarNSpice.CpuHogdV0
import SugarNSpice.CpioListFacts

namespace SugarNSpice.CpuHogd

open CLang Cpio Bignum

/-! ## Numbers written and read back -/

theorem numeral_toDigits (n : Nat) : Numeral 10 (ascii (Nat.toDigits 10 n)) n := by
  constructor
  · simp [ascii, Nat.toDigits_ne_nil]
  · intro c hc
    obtain ⟨ch, hch, rfl⟩ := List.mem_map.1 hc
    obtain ⟨hd, hbyte⟩ := toNat_of_mem_toDigits hch
    rw [hbyte]
    omega
  · have hsame : (ascii (Nat.toDigits 10 n)).reverse.map (fun c => c.toNat - 48) =
        (Nat.toDigits 10 n).reverse.map fun ch => ch.toNat - 48 := by
      rw [ascii, ← List.map_reverse, List.map_map]
      refine List.map_congr_left fun ch hch => ?_
      simp [(toNat_of_mem_toDigits (List.mem_reverse.1 hch)).2]
    have hread := Nat.ofDigitChars_toDigits (b := 10) (n := n) (by simp) (by simp)
    rw [Nat.ofDigitChars_eq_foldl] at hread
    rw [hsame, Nat.ofDigits_eq_foldr, List.foldr_map, List.foldr_reverse]
    refine Eq.trans ?_ hread
    congr 1
    funext k ch
    exact Nat.add_comm _ _

theorem printfInt_solid (x : Int) : ascii (printfInt x) ≠ [] ∧ ∀ c ∈ ascii (printfInt x), isSpace c = false := by
  have hnumeral := numeral_toDigits x.natAbs
  rw [ascii_printfInt]
  split
  · exact ⟨List.cons_ne_nil _ _, List.forall_mem_cons.2 ⟨rfl, hnumeral.solid⟩⟩
  · exact ⟨hnumeral.ne_nil, hnumeral.solid⟩

/-- **What `%d` writes, `%d` reads.** -/
theorem scanInt_printfInt (v : BitVec 32) {gap s : List Byte} (hgap : Blanks gap)
    (hs : Stops (fun c => (digit 10 c).isSome) s) : scanInt (gap ++ (ascii (printfInt v.toInt) ++ s)) = some (v, s) := by
  obtain ⟨hne, hsolid⟩ := printfInt_solid v.toInt
  have hnumeral := numeral_toDigits v.toInt.natAbs
  have hle := BitVec.le_toInt v
  have hlt := BitVec.toInt_lt (x := v)
  by_cases hneg : v.toInt < 0
  · have hdigits : scanDigits 10 (gap ++ (ascii (printfInt v.toInt) ++ s)) = some (true, v.toInt.natAbs, s) := by
      refine scanDigits_of_sign ?_ hnumeral hs
      rw [scanSpace_word hgap hne hsolid, ascii_printfInt, if_pos hneg]
      rfl
    have hvalue : max (-(v.toInt.natAbs : Int)) (-2 ^ 63) = v.toInt := by omega
    simp only [scanInt, hdigits, Option.bind_eq_bind, Option.bind_some, if_true, hvalue, BitVec.ofInt_toInt]
  · have hdigits : scanDigits 10 (gap ++ (ascii (printfInt v.toInt) ++ s)) = some (false, v.toInt.natAbs, s) := by
      refine scanDigits_of_sign ?_ hnumeral hs
      rw [scanSpace_word hgap hne hsolid, ascii_printfInt, if_neg hneg, hnumeral.scanSign_eq]
    have hvalue : min (v.toInt.natAbs : Int) (2 ^ 63 - 1) = v.toInt := by omega
    simp only [scanInt, hdigits, Option.bind_eq_bind, Option.bind_some, Bool.false_eq_true, if_false, hvalue,
      BitVec.ofInt_toInt]

/-! ## One command -/

inductive Command where
  | quit
  | jam (secs : BitVec 32)
  | hydra (mask secs : BitVec 32)

def Command.word : Command → List Byte
  | .quit => quitWord
  | .jam _ => jamWord
  | .hydra _ _ => hydraWord

/-- What follows it. -/
def Command.arguments : Command → List Byte
  | .quit => []
  | .jam secs => 32 :: ascii (printfInt secs.toInt)
  | .hydra mask secs => 32 :: (ascii (printfInt mask.toInt) ++ 32 :: ascii (printfInt secs.toInt))

def Command.action : Command → Action
  | .quit => .quit
  | .jam secs => jamAction secs
  | .hydra mask secs => hydraAction mask secs

/-- A `read` that begins with the command, and goes on, if at all, with white
space or a NUL. -/
def Says (m : Message) (c : Command) : Prop :=
  m.bytes.length < 128 ∧ ∃ tail, m.bytes = c.word ++ c.arguments ++ tail ∧
    ∀ b, tail.head? = some b → isSpace b = true ∨ b = 0

theorem text_append {a b : List Byte} (h : 0 ∉ a) : text (a ++ b) = a ++ text b := by
  refine List.takeWhile_append_of_pos fun c hc => ?_
  simp only [ne_eq, decide_not, Bool.not_eq_true', decide_eq_false_iff_not]
  rintro rfl
  exact h hc

theorem nul_not_mem_printfInt (x : Int) : 0#8 ∉ ascii (printfInt x) := by
  intro h
  rcases (plain_printfInt x 0 h).1 with h | h | h <;> simp at h

theorem Command.word_plain (c : Command) : 0 ∉ c.word ∧ c.word ≠ [] ∧ (∀ b ∈ c.word, isSpace b = false) ∧
    c.word.length < 32 := by
  cases c <;> simp [Command.word, quitWord, jamWord, hydraWord, ascii, isSpace]

theorem Command.nul_not_mem_arguments (c : Command) : 0 ∉ c.arguments := by
  cases c <;> simp [Command.arguments, nul_not_mem_printfInt]

theorem Says.text_eq {m : Message} {c : Command} (h : Says m c) : ∃ rest, text m.bytes = c.word ++ (c.arguments ++ rest) ∧
    ∀ b, rest.head? = some b → isSpace b = true := by
  obtain ⟨-, tail, hbytes, htail⟩ := h
  refine ⟨text tail, ?_, fun b hb => ?_⟩
  · rw [hbytes, List.append_assoc, text_append c.word_plain.1, text_append c.nul_not_mem_arguments]
  · cases tail with
    | nil => simp at hb
    | cons x tail =>
      rw [text_cons] at hb
      by_cases hx : x = 0
      · simp [hx] at hb
      · rw [if_neg hx, List.head?_cons] at hb
        obtain rfl := Option.some.inj hb
        exact (htail x rfl).resolve_right hx

theorem Says.firstWord_eq {m : Message} {c : Command} (h : Says m c) : firstWord m.bytes = c.word := by
  obtain ⟨rest, htext, hrest⟩ := h.text_eq
  obtain ⟨-, hne, hsolid, -⟩ := c.word_plain
  have hspace : scanSpace (c.word ++ (c.arguments ++ rest)) = c.word ++ (c.arguments ++ rest) :=
    scanSpace_word blanks_nil hne hsolid
  rw [firstWord, htext, scanWord, hspace]
  refine takeWhile_until (fun b hb => by simp [hsolid b hb]) fun b hb => ?_
  cases c with
  | quit => simp [hrest b hb]
  | jam => simp [← Option.some.inj hb, isSpace]
  | hydra => simp [← Option.some.inj hb, isSpace]

theorem Says.argument_eq {m : Message} {c : Command} (h : Says m c) {arguments : List Byte}
    (hc : c.arguments = 32 :: arguments) : ∃ rest, argument m.bytes = arguments ++ rest ∧
      Stops (fun b => (digit 10 b).isSome) rest := by
  obtain ⟨rest, htext, hrest⟩ := h.text_eq
  refine ⟨rest, ?_, fun b hb => by simp [digit_of_isSpace (hrest b hb)]⟩
  have hword : ∀ b ∈ c.word, decide (b ≠ 32) = true := by
    intro b hb
    have hsolid := c.word_plain.2.2.1 b hb
    refine decide_eq_true ?_
    rintro rfl
    simp [isSpace] at hsolid
  rw [argument, htext, List.dropWhile_append_of_pos hword, hc]
  simp

theorem Says.fits {m : Message} {c : Command} (h : Says m c) : Fits m.bytes :=
  ⟨h.1, by rw [h.firstWord_eq]; exact c.word_plain.2.2.2⟩

theorem answer_jam (s : List Byte) (mask secs : BitVec 32) :
    answer jamWord s mask secs = jamAction (((scanInt s).map (·.1)).getD secs) := by
  rw [answer, if_neg (by simp [jamWord, quitWord, ascii]), if_pos rfl]

theorem answer_hydra (s : List Byte) (mask secs : BitVec 32) :
    answer hydraWord s mask secs = hydraAction (sscanfHydra s mask secs).1 (sscanfHydra s mask secs).2 := by
  rw [answer, if_neg (by simp [hydraWord, quitWord, ascii]), if_neg (by simp [hydraWord, jamWord, ascii]), if_pos rfl]

/-- **A command is carried out**, whatever the daemon was told before and
whatever follows in the same read. -/
theorem Says.act_eq {m : Message} {c : Command} (h : Says m c) (d : Daemon) : act d m = .ok c.action := by
  have hword : commandWord d.vars.cmd m.bytes = c.word := by
    rw [commandWord, h.firstWord_eq, if_neg c.word_plain.2.1]
  rw [CpuHogd.act_eq h.fits, hword]
  refine congrArg Except.ok ?_
  cases c with
  | quit => rfl
  | jam secs =>
    obtain ⟨rest, harg, hrest⟩ := h.argument_eq rfl
    have hscan := scanInt_printfInt secs blanks_nil hrest
    rw [List.nil_append, ← harg] at hscan
    rw [Command.word, answer_jam, hscan]
    rfl
  | hydra mask secs =>
    obtain ⟨rest, harg, hrest⟩ := h.argument_eq rfl
    obtain ⟨hne, hsolid⟩ := printfInt_solid secs.toInt
    have hblank : Stops (fun b => (digit 10 b).isSome) (32 :: (ascii (printfInt secs.toInt) ++ rest)) := by
      intro b hb
      rw [← Option.some.inj hb]
      rfl
    have hmask := scanInt_printfInt mask blanks_nil hblank
    have hgap : Blanks [32] := by simp [Blanks, isBlank]
    have hspace : scanSpace (32 :: (ascii (printfInt secs.toInt) ++ rest)) = ascii (printfInt secs.toInt) ++ rest :=
      scanSpace_word hgap hne hsolid
    have hsecs := scanInt_printfInt secs blanks_nil hrest
    rw [List.nil_append] at hmask hsecs
    rw [List.append_assoc, List.cons_append] at harg
    rw [Command.word, answer_hydra, harg]
    simp only [sscanfHydra, hmask, hspace, hsecs]
    rfl

/-! ## A session -/

/-- What the daemon does for one read after another, until it leaves its loop. -/
def answers : Daemon → List (Nat × Message) → Outcome (List Action)
  | _, [] => .ok []
  | d, (fd, m) :: ms => do
    let (a, next) ← iteration d (.read fd m)
    match next with
    | none => .ok [a]
    | some d => do .ok (a :: (← answers d ms))

/-- What it is to do for these commands: all of them, up to one that makes it
quit. -/
def carriedOut : List Command → List Action
  | [] => []
  | c :: cs => if c.action = .quit then [.quit] else c.action :: carriedOut cs

theorem respond_quit {v v' : Vars} {w s : List Byte} {a : Action} {how : Exit} (h : respond v w s = .ok (a, how, v')) :
    how = .quit ↔ a = .quit := by
  unfold respond at h
  split at h
  next => cases h; simp
  split at h
  next =>
    cases h
    simp only [reduceCtorEq, false_iff]
    split <;> simp
  split at h
  next =>
    obtain ⟨-, hcase⟩ | ⟨-, hcase⟩ | ⟨-, mask, hcase⟩ := hydra_cases (v := v) (s := s) Prod.mk.eta.symm
    · rw [hcase] at h
      cases h
      simp
    · rw [hcase] at h
      cases h
      simp
    · rw [hcase] at h
      cases h
      simp only [reduceCtorEq, false_iff]
      split <;> simp
  next => cases h; simp

theorem iteration_act {d : Daemon} {m : Message} {a : Action} (fd : Nat) (hfits : Fits m.bytes) (h : act d m = .ok a) :
    ∃ next, iteration d (.read fd m) = .ok (a, next) ∧ (next = none ↔ a = .quit) := by
  obtain ⟨v, -, -, -, hcommand⟩ := command_eq (v := d.vars) hfits
  obtain ⟨⟨b, how, v'⟩, hr⟩ := respond_total v (commandWord d.vars.cmd m.bytes) (argument m.bytes)
  have hquit := respond_quit hr
  rw [hr] at hcommand
  have hab : b = a := by
    rw [act, hcommand, ok_bind] at h
    exact Except.ok.inj h
  subst hab
  have hopened : command (d.opened fd).vars m = .ok (b, how, v') := hcommand
  cases how with
  | quit => exact ⟨none, by rw [iteration, hopened, ok_bind], by simpa using hquit⟩
  | skip => exact ⟨_, by rw [iteration, hopened, ok_bind], by simpa using hquit⟩
  | close => exact ⟨_, by rw [iteration, hopened, ok_bind], by simpa using hquit⟩

/-- **The daemon carries out its commands.** From any state, and for reads that
each begin with a command, it does just what these say, one after the other,
and nothing after the first that makes it quit. -/
theorem answers_carriedOut (d : Daemon) {ms : List (Nat × Message)} {cs : List Command}
    (h : List.Forall₂ (fun r c => Says r.2 c) ms cs) : answers d ms = .ok (carriedOut cs) := by
  induction h generalizing d with
  | nil => rfl
  | @cons r c ms cs hread _ ih =>
    obtain ⟨fd, m⟩ := r
    obtain ⟨next, hturn, hnext⟩ := iteration_act fd hread.fits (hread.act_eq d)
    rw [answers, hturn, ok_bind, carriedOut]
    cases next with
    | none => rw [if_pos (hnext.1 rfl), hnext.1 rfl]
    | some d' =>
      rw [if_neg fun hq => Option.some_ne_none d' (hnext.2 hq)]
      simp only [ih, ok_bind]

/-- Two processors for five seconds, a second command in the same read, and
the end. -/
theorem answers_carriedOut_sample :
    answers (start (nuls 128) (nuls 32))
      [(3, message ['h', 'y', 'd', 'r', 'a', ' ', '3', ' ', '5', '\n', 'j', 'a', 'm', ' ', '7'] (by simp)),
        (3, message ['q', 'u', 'i', 't'] (by simp))] = .ok [.fork [0, 1] 5, .quit] := by
  have hhydra : Says (message ['h', 'y', 'd', 'r', 'a', ' ', '3', ' ', '5', '\n', 'j', 'a', 'm', ' ', '7'] (by simp))
      (.hydra 3 5) := ⟨by decide, ascii ['\n', 'j', 'a', 'm', ' ', '7'], by decide, by decide⟩
  have hquit : Says (message ['q', 'u', 'i', 't'] (by simp)) .quit := ⟨by decide, [], by decide, by decide⟩
  have hread : List.Forall₂ (fun r c => Says r.2 c) [((3 : Nat), _), (3, _)] [_, _] :=
    .cons hhydra (.cons hquit .nil)
  exact answers_carriedOut _ hread

end SugarNSpice.CpuHogd
