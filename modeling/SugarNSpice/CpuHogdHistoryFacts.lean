/-
What the daemon keeps of earlier messages.

The word, the mask and the seconds outlive an iteration, and a message that
does not set one of them is answered with the old value: `answer` is the action
as a function of both. The runs that show the difference leave `jam` and some
seconds behind, or a word the daemon does not know.
-/
import SugarNSpice.CpuHogdFacts
import Mathlib.Data.List.TakeWhile

namespace SugarNSpice.CpuHogd

open CLang Cpio

/-! ## The action -/

/-- What the daemon does for a message. -/
def act (d : Daemon) (m : Message) : Outcome Action := do .ok (← command d.vars m).1

/-- The daemon acts on the message alone: whatever the arrays held, and after
any two runs that leave it running, it does the same, and nothing for an empty
read. -/
def ActsAlike (m : Message) : Prop :=
  ∀ buf cmd h₁ h₂ d₁ d₂, run (start buf cmd) h₁ = .ok (some d₁) → run (start buf cmd) h₂ = .ok (some d₂) →
    ∃ a, act d₁ m = .ok a ∧ act d₂ m = .ok a ∧ (m.bytes = [] → a = .nothing)

/-- A message that says all there is to say: it has a first word, which fits;
after `jam` the seconds can be read, and after `hydra` both numbers can, or the
first one is -1. -/
def SelfContained (bs : List Byte) : Prop :=
  firstWord bs ≠ [] ∧ (firstWord bs).length ≤ 31 ∧
    (firstWord bs = jamWord → ∃ secs s, scanInt (argument bs) = some (secs, s)) ∧
    (firstWord bs = hydraWord → ∃ mask s, scanInt (argument bs) = some (mask, s) ∧
      (mask = -1 ∨ ∃ secs s', scanInt (scanSpace s) = some (secs, s')))

def jamAction (secs : BitVec 32) : Action := if 0 < secs.toInt ∧ secs.toInt < 120 then .busy secs else .nothing

def hydraAction (mask secs : BitVec 32) : Action :=
  if mask = -1 ∨ secs = -1 then .quit
  else if 100 < secs.toInt then .nothing
  else if hoggers mask = [] then .nothing
  else .fork (hoggers mask) secs

/-- The action as a function of the word, its argument, and the two numbers
there were. -/
def answer (w s : List Byte) (mask secs : BitVec 32) : Action :=
  if w = quitWord then .quit
  else if w = jamWord then jamAction (((scanInt s).map (·.1)).getD secs)
  else if w = hydraWord then hydraAction (sscanfHydra s mask secs).1 (sscanfHydra s mask secs).2
  else .nothing

theorem hydra_action (v : Vars) (s : List Byte) : ∃ how v',
    hydra v s = .ok (hydraAction (sscanfHydra s v.mask v.secs).1 (sscanfHydra s v.mask v.secs).2, how, v') := by
  obtain ⟨hneg, h⟩ | ⟨hskip, h⟩ | ⟨hshort, mask, h⟩ := hydra_cases (v := v) (s := s) Prod.mk.eta.symm
  · exact ⟨_, _, by rw [h, hydraAction, if_pos hneg]⟩
  · exact ⟨_, _, by rw [h, hydraAction, if_neg (not_or.2 ⟨hskip.1, hskip.2.1⟩), if_pos hskip.2.2]⟩
  · exact ⟨_, _, by rw [h, hydraAction, if_neg hshort.1, if_neg (not_lt.2 hshort.2)]⟩

/-- **The action**, for a message that fits. -/
theorem act_eq {d : Daemon} {m : Message} (h : Fits m.bytes) :
    act d m = .ok (answer (commandWord d.vars.cmd m.bytes) (argument m.bytes) d.vars.mask d.vars.secs) := by
  obtain ⟨v, hmask, hsecs, -, hcommand⟩ := command_eq (v := d.vars) h
  rw [act, hcommand, ← hmask, ← hsecs]
  unfold respond answer
  split
  · rfl
  split
  · rfl
  split
  · obtain ⟨how, v', hhydra⟩ := hydra_action v (argument m.bytes)
    rw [hhydra, ok_bind]
  · rfl

theorem act_bounds {d : Daemon} {m : Message} (h : ¬ Fits m.bytes) : act d m = .error .bounds := by
  rw [act, command_bounds h, error_bind]

theorem SelfContained.answer {bs : List Byte} (h : SelfContained bs) :
    ∃ a, ∀ mask secs, answer (firstWord bs) (argument bs) mask secs = a := by
  obtain ⟨-, -, hjam, hhydra⟩ := h
  unfold CpuHogd.answer
  split
  · exact ⟨_, fun _ _ => rfl⟩
  split
  next hw =>
    obtain ⟨x, s, hx⟩ := hjam hw
    exact ⟨jamAction x, fun mask secs => by simp [hx]⟩
  split
  next hw =>
    obtain ⟨x, s, hx, hneg | ⟨y, s', hy⟩⟩ := hhydra hw
    · refine ⟨.quit, fun mask secs => ?_⟩
      have hmask : (sscanfHydra (argument bs) mask secs).1 = -1 := by
        unfold sscanfHydra
        simp only [hx]
        split <;> exact hneg
      exact if_pos (.inl hmask)
    · exact ⟨hydraAction x y, fun mask secs => by simp only [sscanfHydra, hx, hy]⟩
  · exact ⟨_, fun _ _ => rfl⟩

/-! ## Histories -/

theorem scanInt_argument_of_no_word {bs : List Byte} (h : firstWord bs = []) : scanInt (argument bs) = none := by
  have hspaces : ∀ c ∈ text bs, isSpace c = true := by
    have hnil : scanSpace (text bs) = [] := by
      cases hs : scanSpace (text bs) with
      | nil => rfl
      | cons c s =>
        have hdrop : (text bs).dropWhile isSpace = c :: s := hs
        have hc := List.head_dropWhile_not isSpace (l := text bs) (by simp [hdrop])
        simp only [hdrop, List.head_cons] at hc
        simp [firstWord, scanWord, hs, hc] at h
    exact List.dropWhile_eq_nil_iff.1 hnil
  have hsub : ∀ c ∈ argument bs, c ∈ text bs := fun c hc =>
    (List.dropWhile_suffix _).subset ((List.drop_suffix ..).subset hc)
  have hskip : scanSpace (argument bs) = [] := List.dropWhile_eq_nil_iff.2 fun c hc => hspaces c (hsub c hc)
  simp [scanInt, scanDigits, hskip, scanSign]

theorem run_close {d : Daemon} {m : Message} {a : Action} {v : Vars} (h : command d.vars m = .ok (a, .close, v)) :
    run d [.read 3 m] = .ok (some ⟨v, d.fds⟩) := by
  simp only [run, iteration, Daemon.opened, Daemon.closed, h, ok_bind, List.erase_cons_head]

theorem run_jam {m : Message} {secs : BitVec 32} {s : List Byte} (hfits : Fits m.bytes)
    (hword : firstWord m.bytes = jamWord) (hsecs : scanInt (argument m.bytes) = some (secs, s)) (d : Daemon) :
    ∃ d', run d [.read 3 m] = .ok (some d') ∧ d'.vars.mask = d.vars.mask ∧ d'.vars.secs = secs ∧
      text d'.vars.cmd.bytes = jamWord := by
  obtain ⟨v, hmask, -, htext, hcommand⟩ := command_eq (v := d.vars) hfits
  have hjam : commandWord d.vars.cmd m.bytes = jamWord := by
    rw [commandWord, hword, if_neg (by decide)]
  rw [hjam] at hcommand htext
  have hrespond : respond v jamWord (argument m.bytes) =
      .ok (jamAction secs, .close, { v with secs := secs }) := by
    rw [respond, if_neg (by decide), if_pos rfl, jam, hsecs]
    rfl
  rw [hrespond] at hcommand
  exact ⟨_, run_close hcommand, hmask, rfl, htext⟩

theorem run_unknown {m : Message} (hfits : Fits m.bytes) (hnil : firstWord m.bytes ≠ [])
    (hquit : firstWord m.bytes ≠ quitWord) (hjam : firstWord m.bytes ≠ jamWord)
    (hhydra : firstWord m.bytes ≠ hydraWord) (d : Daemon) :
    ∃ d', run d [.read 3 m] = .ok (some d') ∧ text d'.vars.cmd.bytes = firstWord m.bytes := by
  obtain ⟨v, -, -, htext, hcommand⟩ := command_eq (v := d.vars) hfits
  rw [commandWord, if_neg hnil] at hcommand htext
  rw [respond, if_neg hquit, if_neg hjam, if_neg hhydra] at hcommand
  exact ⟨_, run_close hcommand, htext⟩

def jamBytes (digits : List Char) : List Byte := ascii (['j', 'a', 'm', ' '] ++ digits)

/-- Numbers and how they are written. -/
def samples : List (BitVec 32 × List Char) := [(5, ['5']), (6, ['6']), (-1, ['-', '1']), (200, ['2', '0', '0'])]

theorem jamBytes_scanned : ∀ p ∈ samples, (jamBytes p.2).length < 128 ∧ firstWord (jamBytes p.2) = jamWord ∧
    scanInt (argument (jamBytes p.2)) = some (p.1, []) := by decide

/-- After `jam` with five, six, -1 and 200 seconds, and after an unknown
word. -/
theorem histories (d : Daemon) :
    (∀ secs ∈ [5, 6, -1, 200], ∃ es d', run d es = .ok (some d') ∧ d'.vars.mask = d.vars.mask ∧
      d'.vars.secs = secs ∧ text d'.vars.cmd.bytes = jamWord) ∧
    ∃ es d', run d es = .ok (some d') ∧ text d'.vars.cmd.bytes = [120] := by
  constructor
  · intro secs hsecs
    have hmem : secs ∈ samples.map Prod.fst := hsecs
    obtain ⟨p, hp, rfl⟩ := List.mem_map.1 hmem
    obtain ⟨hlen, hword, hscan⟩ := jamBytes_scanned p hp
    have hfits : Fits (jamBytes p.2) := ⟨hlen, by rw [hword]; decide⟩
    exact ⟨_, run_jam (m := ⟨jamBytes p.2, Nat.le_of_lt hlen⟩) hfits hword hscan d⟩
  · exact ⟨_, run_unknown (m := ⟨[120], by decide⟩) ⟨by decide, by decide⟩ (by decide) (by decide) (by decide)
      (by decide) d⟩

/-! ## Two runs -/

section Differs

variable {m : Message}

theorem ActsAlike.same (h : ActsAlike m) {es₁ es₂ : List Event} {d₁ d₂ : Daemon} {a₁ a₂ : Action}
    (h₁ : run (start (nuls 128) (nuls 32)) es₁ = .ok (some d₁))
    (h₂ : run (start (nuls 128) (nuls 32)) es₂ = .ok (some d₂)) (ha₁ : act d₁ m = .ok a₁) (ha₂ : act d₂ m = .ok a₂) :
    a₁ = a₂ := by
  obtain ⟨a, ha, ha', -⟩ := h _ _ es₁ es₂ d₁ d₂ h₁ h₂
  rw [ha₁] at ha
  rw [ha₂] at ha'
  cases ha
  cases ha'
  rfl

theorem ActsAlike.fits (h : ActsAlike m) : Fits m.bytes := by
  by_contra hno
  obtain ⟨a, ha, -⟩ := h (nuls 128) (nuls 32) [] [] _ _ rfl rfl
  rw [act_bounds hno] at ha
  cases ha

/-- The action for `jam` without a number: the seconds are the old ones. -/
theorem act_jam_stale {d : Daemon} (hfits : Fits m.bytes) (hword : commandWord d.vars.cmd m.bytes = jamWord)
    (hnone : scanInt (argument m.bytes) = none) : act d m = .ok (jamAction d.vars.secs) := by
  rw [act_eq hfits, hword, answer, if_neg (by decide), if_pos rfl, hnone]
  rfl

theorem ActsAlike.word (h : ActsAlike m) : firstWord m.bytes ≠ [] := by
  intro hnil
  have hfits := h.fits
  obtain ⟨hjams, es₂, d₂, hrun₂, htext₂⟩ := histories (start (nuls 128) (nuls 32))
  obtain ⟨es₁, d₁, hrun₁, -, hsecs₁, htext₁⟩ := hjams 5 (by simp)
  have hact₁ : act d₁ m = .ok (.busy 5) := by
    rw [act_jam_stale hfits (by rw [commandWord, if_pos hnil, htext₁]) (scanInt_argument_of_no_word hnil), hsecs₁]
    rfl
  have hact₂ : act d₂ m = .ok .nothing := by
    rw [act_eq hfits, commandWord, if_pos hnil, htext₂]
    rfl
  cases h.same hrun₁ hrun₂ hact₁ hact₂

theorem ActsAlike.jam (h : ActsAlike m) (hword : firstWord m.bytes = jamWord) :
    ∃ secs s, scanInt (argument m.bytes) = some (secs, s) := by
  by_contra hno
  have hfits := h.fits
  have hnone : scanInt (argument m.bytes) = none := by
    cases hs : scanInt (argument m.bytes) with
    | none => rfl
    | some x => exact absurd ⟨x.1, x.2, hs⟩ hno
  obtain ⟨hjams, -⟩ := histories (start (nuls 128) (nuls 32))
  obtain ⟨es₁, d₁, hrun₁, -, hsecs₁, -⟩ := hjams 5 (by simp)
  obtain ⟨es₂, d₂, hrun₂, -, hsecs₂, -⟩ := hjams 6 (by simp)
  have hact : ∀ d : Daemon, act d m = .ok (jamAction d.vars.secs) := fun d =>
    act_jam_stale hfits (by rw [commandWord, hword, if_neg (by decide)]) hnone
  have hbusy := h.same hrun₁ hrun₂ (hact d₁) (hact d₂)
  rw [hsecs₁, hsecs₂] at hbusy
  exact absurd hbusy (by decide)

/-- Without two numbers, and without -1 for the first, the seconds are the old
ones and the mask is not -1. -/
theorem sscanfHydra_stale {s : List Byte} (h : ¬ ∃ mask s', scanInt s = some (mask, s') ∧
    (mask = -1 ∨ ∃ secs s'', scanInt (scanSpace s') = some (secs, s''))) :
    ∃ mask, mask ≠ -1 ∧ ∀ secs, sscanfHydra s 1 secs = (mask, secs) := by
  cases hs : scanInt s with
  | none => exact ⟨1, by decide, fun secs => by simp only [sscanfHydra, hs]⟩
  | some x =>
    obtain ⟨mask, s'⟩ := x
    refine ⟨mask, fun hneg => h ⟨mask, s', hs, .inl hneg⟩, fun secs => ?_⟩
    cases hs' : scanInt (scanSpace s') with
    | none => simp only [sscanfHydra, hs, hs']
    | some y => exact absurd ⟨mask, s', hs, .inr ⟨y.1, y.2, hs'⟩⟩ h

theorem ActsAlike.hydra (h : ActsAlike m) (hword : firstWord m.bytes = hydraWord) :
    ∃ mask s, scanInt (argument m.bytes) = some (mask, s) ∧
      (mask = -1 ∨ ∃ secs s', scanInt (scanSpace s) = some (secs, s')) := by
  by_contra hno
  obtain ⟨mask, hmask, hscan⟩ := sscanfHydra_stale hno
  have hact : ∀ d : Daemon, d.vars.mask = 1 → act d m = .ok (hydraAction mask d.vars.secs) := by
    intro d hd
    rw [act_eq h.fits, commandWord, hword, if_neg (by decide), answer, if_neg (by decide), if_neg (by decide),
      if_pos rfl, hd, hscan]
  obtain ⟨hjams, -⟩ := histories (start (nuls 128) (nuls 32))
  obtain ⟨es₁, d₁, hrun₁, hmask₁, hsecs₁, -⟩ := hjams (-1) (by simp)
  obtain ⟨es₂, d₂, hrun₂, hmask₂, hsecs₂, -⟩ := hjams 200 (by simp)
  have hact₁ : act d₁ m = .ok .quit := by
    rw [hact d₁ hmask₁, hsecs₁, hydraAction, if_pos (.inr rfl)]
  have hact₂ : act d₂ m = .ok .nothing := by
    rw [hact d₂ hmask₂, hsecs₂, hydraAction, if_neg (not_or.2 ⟨hmask, by decide⟩), if_pos (by decide)]
  cases h.same hrun₁ hrun₂ hact₁ hact₂

end Differs

/-- **When the daemon acts on the message alone.** For every message of at most
127 bytes: after any two histories that leave the daemon running it does the
same for the message, exactly when the message has a first word of at most 31
bytes, followed by the seconds if it is `jam`, and by two numbers, or by -1, if
it is `hydra`. -/
theorem actsAlike_iff {m : Message} (hm : m.bytes.length ≤ 127) : ActsAlike m ↔ SelfContained m.bytes := by
  constructor
  · intro h
    exact ⟨h.word, Nat.le_of_lt_succ h.fits.2, h.jam, h.hydra⟩
  · intro h buf cmd es₁ es₂ d₁ d₂ _ _
    have hfits : Fits m.bytes := ⟨Nat.lt_succ_of_le hm, Nat.lt_succ_of_le h.2.1⟩
    obtain ⟨a, ha⟩ := h.answer
    have hact : ∀ d : Daemon, act d m = .ok a := by
      intro d
      rw [act_eq hfits, commandWord, if_neg h.1, ha d.vars.mask d.vars.secs]
    refine ⟨a, hact d₁, hact d₂, fun hempty => absurd ?_ h.1⟩
    rw [hempty]
    rfl

theorem actsAlike_iff_sample : ActsAlike (message ['j', 'a', 'm', ' ', '5'] (by decide)) :=
  (actsAlike_iff (by decide)).2 ⟨by decide, by decide, fun _ => ⟨5, [], by decide⟩, fun h => absurd h (by decide)⟩

/-- An empty read: after `jam 5` the daemon is busy for five seconds again,
where after an unknown word it does nothing. -/
theorem empty_read_acts :
    ¬ ActsAlike ⟨[], by decide⟩ ∧
      ∃ d, run (start (nuls 128) (nuls 32)) [.read 3 (message ['j', 'a', 'm', ' ', '5'] (by decide))] = .ok (some d) ∧
        act d ⟨[], by decide⟩ = .ok (.busy 5) := by
  refine ⟨fun h => h.word rfl, ?_⟩
  have hscan : scanInt (argument (ascii ['j', 'a', 'm', ' ', '5'])) = some (5, []) := by decide
  obtain ⟨d, hrun, -, hsecs, htext⟩ := run_jam (m := message ['j', 'a', 'm', ' ', '5'] (by decide))
    ⟨by decide, by decide⟩ (by decide) hscan (start (nuls 128) (nuls 32))
  have hword : commandWord d.vars.cmd [] = jamWord := htext
  refine ⟨d, hrun, ?_⟩
  rw [act_jam_stale ⟨by decide, by decide⟩ hword rfl, hsecs]
  rfl

end SugarNSpice.CpuHogd
