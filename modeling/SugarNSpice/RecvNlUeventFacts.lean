/-
What the uevent scan finds, and when it stays inside its buffer.

A turn begins at the start of an entry and leaves the scan at the start of the
next one, with the entry's keys recorded (`examine`): neither the comparisons
nor the skip read past the entry's NUL, whatever follows it. So the scan walks
a message entry by entry (`loop_entries`), which gives the last value of each
key. An entry without a NUL is only there where the datagram fills the buffer
to its last byte, and then nothing stops the skip.
-/
import SugarNSpice.RecvNlUevent
import SugarNSpice.StrstrFacts
import Mathlib.Data.List.Induction

namespace SugarNSpice.RecvNlUevent

open CLang Strstr

def message (entries : List CString) : List (BitVec 8) := entries.flatMap CString.mem

/-- The entry starts with the key's text. -/
def HasKey (j : UeventEnv) (e : CString) : Prop := (ueventEnvStr j).bytes <+: e.bytes

instance (j : UeventEnv) (e : CString) : Decidable (HasKey j e) := inferInstanceAs (Decidable (_ <+: _))

@[simp] theorem message_nil : message [] = [] := rfl

theorem message_cons (e : CString) (entries : List CString) :
    message (e :: entries) = e.bytes ++ 0 :: message entries := by
  simp [message, CString.mem]

theorem message_append (l m : List CString) : message (l ++ m) = message l ++ message m := List.flatMap_append

/-! ## One entry -/

/-- A text without a NUL that memory starts with ends before the first NUL. -/
theorem isPrefix_entry_iff {v e after : List (BitVec 8)} (hv : 0 ∉ v) : v <+: e ++ 0 :: after ↔ v <+: e := by
  refine ⟨fun h => ?_, fun h => h.trans (List.prefix_append _ _)⟩
  rcases List.prefix_or_prefix_of_prefix h (List.prefix_append e (0 :: after)) with hve | ⟨w, rfl⟩
  · exact hve
  · rw [List.prefix_append_right_inj] at h
    cases w with
    | nil => exact (List.append_nil e).symm ▸ List.prefix_rfl
    | cons c w =>
      obtain ⟨rfl, -⟩ := List.cons_prefix_cons.1 h
      exact absurd (by simp) hv

theorem strncmpEq_entry (v e : CString) (after : List (BitVec 8)) :
    strncmpEq (e.bytes ++ 0 :: after) v.mem v.bytes.length = .ok (decide (v.bytes <+: e.bytes)) := by
  rw [CString.mem, strncmpEq_spec v.nulFree (.inr (by simp))]
  simp only [isPrefix_entry_iff v.nulFree]

theorem skipEntry_entry {e : List (BitVec 8)} (he : 0 ∉ e) (after : List (BitVec 8)) :
    skipEntry (e ++ 0 :: after) = .ok (e.length + 1) := by
  induction e with
  | nil => rfl
  | cons c e ih =>
    rw [List.mem_cons, not_or] at he
    rw [List.cons_append, skipEntry, if_neg (Ne.symm he.1), ih he.2, ok_bind, List.length_cons]

/-- What an entry at `s.ueventEnvp` makes of the scan's state. -/
def examine (s : Scan) (e : CString) : Scan where
  ueventEnvp := s.ueventEnvp + (e.bytes.length + 1)
  ueventEnvpVals j := if HasKey j e then some (s.ueventEnvp + (ueventEnvStr j).bytes.length) else s.ueventEnvpVals j
  hits := s.hits + UeventEnv.all.countP fun j => HasKey j e

section Keys

variable {buf after : List (BitVec 8)} {e : CString} {p : Nat}

theorem matchKey_entry (hbuf : buf.drop p = e.bytes ++ 0 :: after) (i : UeventEnv) (vals : UeventEnv → Option Nat)
    (hits : Nat) :
    matchKey buf ⟨p, vals, hits⟩ i = .ok ⟨p,
      fun j => if j = i ∧ HasKey j e then some (p + (ueventEnvStr j).bytes.length) else vals j,
      if HasKey i e then hits + 1 else hits⟩ := by
  unfold matchKey
  rw [strlen_mem, ok_bind, hbuf, strncmpEq_entry, ok_bind]
  by_cases hk : HasKey i e
  · rw [decide_eq_true (show _ <+: _ from hk), if_pos rfl, if_pos hk]
    congr 2
    funext j
    by_cases hij : j = i
    · subst hij; simp [hk]
    · simp [hij]
  · rw [decide_eq_false (show ¬ _ <+: _ from hk), if_neg (by simp), if_neg hk]
    congr 2
    funext j
    rw [if_neg]
    intro h
    obtain ⟨rfl, hj⟩ := h
    exact hk hj

theorem matchKeys_entry (hbuf : buf.drop p = e.bytes ++ 0 :: after) (js : List UeventEnv)
    (vals : UeventEnv → Option Nat) (hits : Nat) :
    js.foldlM (matchKey buf) ⟨p, vals, hits⟩ = .ok ⟨p,
      fun j => if j ∈ js ∧ HasKey j e then some (p + (ueventEnvStr j).bytes.length) else vals j,
      hits + js.countP fun j => HasKey j e⟩ := by
  induction js generalizing vals hits with
  | nil => simp
  | cons i js ih =>
    rw [List.foldlM_cons, matchKey_entry hbuf, ok_bind, ih]
    simp only [List.countP_cons, decide_eq_true_eq]
    congr 2
    · funext j
      by_cases hij : j = i
      · by_cases hk : HasKey i e <;> simp [hij, hk]
      · simp [hij]
    · split <;> omega

end Keys

/-- **One turn**: from the start of an entry to that of the next. -/
theorem scanTurn_entry {buf after : List (BitVec 8)} {buflen : Int} {s : Scan} {e : CString}
    (hbuf : buf.drop s.ueventEnvp = e.bytes ++ 0 :: after) (hlt : (s.ueventEnvp : Int) < buflen) :
    scanTurn buf buflen s = .ok (.next (examine s e)) := by
  unfold scanTurn
  rw [if_pos hlt, matchKeys_entry hbuf, ok_bind, hbuf, skipEntry_entry e.nulFree, ok_bind]
  have hall : ∀ j, j ∈ UeventEnv.all := by intro j; cases j <;> decide
  simp only [hall, true_and, examine]

theorem scanTurn_done {buf : List (BitVec 8)} {buflen : Int} {s : Scan} (h : buflen ≤ s.ueventEnvp) :
    scanTurn buf buflen s = .ok (.done s) := if_neg (by omega)

/-! ## A message -/

def entryStarts : Nat → List CString → List Nat
  | _, [] => []
  | p, e :: entries => p :: entryStarts (p + (e.bytes.length + 1)) entries

theorem loop_entries {buf rest : List (BitVec 8)} {buflen : Int} (n : Nat) :
    ∀ (entries : List CString) {s : Scan}, buf.drop s.ueventEnvp = message entries ++ rest →
      ((s.ueventEnvp + (message entries).length : Nat) : Int) ≤ buflen →
      loop (scanTurn buf buflen) (n + entries.length) s = loop (scanTurn buf buflen) n (entries.foldl examine s) ∧
      (begun (scanTurn buf buflen) (n + entries.length) s).map Scan.ueventEnvp =
        entryStarts s.ueventEnvp entries ++
          (begun (scanTurn buf buflen) n (entries.foldl examine s)).map Scan.ueventEnvp := by
  intro entries
  induction entries with
  | nil => intro s _ _; exact ⟨rfl, rfl⟩
  | cons e entries ih =>
    intro s hbuf hle
    rw [message_cons, List.append_assoc, List.cons_append] at hbuf
    rw [message_cons, List.length_append, List.length_cons] at hle
    have hturn := @scanTurn_entry _ _ buflen _ _ hbuf (by omega)
    have hnext : buf.drop (examine s e).ueventEnvp = message entries ++ rest := by
      rw [examine, ← List.drop_drop, hbuf, ← List.drop_drop, List.drop_left, List.drop_succ_cons, List.drop_zero]
    obtain ⟨hloop, hbegun⟩ := ih hnext (by simp only [examine]; omega)
    rw [List.length_cons, show n + (entries.length + 1) = n + entries.length + 1 by omega, loop_next hturn,
      begun_next hturn, List.map_cons, hbegun]
    exact ⟨hloop, rfl⟩

theorem foldl_examine_ueventEnvp (entries : List CString) (s : Scan) :
    (entries.foldl examine s).ueventEnvp = s.ueventEnvp + (message entries).length := by
  induction entries generalizing s with
  | nil => rfl
  | cons e entries ih =>
    rw [List.foldl_cons, ih, message_cons, List.length_append, List.length_cons, examine]
    simp only
    omega

theorem foldl_examine_other {j : UeventEnv} {entries : List CString} (h : ∀ e ∈ entries, ¬ HasKey j e) (s : Scan) :
    (entries.foldl examine s).ueventEnvpVals j = s.ueventEnvpVals j := by
  induction entries generalizing s with
  | nil => rfl
  | cons e entries ih =>
    rw [List.foldl_cons, ih fun e' he' => h e' (List.mem_cons_of_mem _ he')]
    exact if_neg (h e List.mem_cons_self)

theorem length_le_length_message (entries : List CString) : entries.length ≤ (message entries).length := by
  induction entries with
  | nil => exact Nat.le_refl 0
  | cons e entries ih =>
    simp only [message_cons, List.length_append, List.length_cons]
    omega

theorem processUeventBuf_message (entries : List CString) (rest : List (BitVec 8)) :
    processUeventBuf (message entries ++ rest) (message entries).length = .ok (entries.foldl examine scanStart) ∧
      (begun (scanTurn (message entries ++ rest) (message entries).length) ((message entries).length + 1) scanStart).map
        Scan.ueventEnvp = entryStarts 0 entries ++ [(message entries).length] := by
  obtain ⟨n, hn⟩ := Nat.exists_eq_add_of_le (length_le_length_message entries)
  have hfuel : (message entries).length + 1 = n + 1 + entries.length := by omega
  have hend : scanTurn (message entries ++ rest) (message entries).length (entries.foldl examine scanStart) =
      .ok (.done (entries.foldl examine scanStart)) := by
    have hp := foldl_examine_ueventEnvp entries scanStart
    exact scanTurn_done (by rw [hp]; simp [scanStart])
  obtain ⟨hloop, hbegun⟩ := @loop_entries (message entries ++ rest) rest (message entries).length (n + 1) entries
    scanStart rfl (by simp [scanStart])
  unfold processUeventBuf
  rw [Int.toNat_natCast, hfuel, hloop, hbegun, loop_done hend, begun_done hend,
    List.map_singleton, foldl_examine_ueventEnvp]
  exact ⟨rfl, by simp [scanStart]⟩

/-- **The scan finds the last value of each key.** For every message of
NUL-terminated entries, whatever follows it in the buffer: the scan ends; a key
no entry starts with has no value; the value of any other points behind the
key in the last entry that starts with it, at the rest of that entry; and its
turns begin at the entries' starts, each once and in order (and a last time at
the end, to leave). -/
theorem processUeventBuf_last_values (entries : List CString) (rest : List (BitVec 8)) :
    ∃ s, processUeventBuf (message entries ++ rest) (message entries).length = .ok s ∧
      (∀ j, (∀ e ∈ entries, ¬ HasKey j e) → s.ueventEnvpVals j = none) ∧
      (∀ j before e later, entries = before ++ e :: later → HasKey j e → (∀ e' ∈ later, ¬ HasKey j e') →
        s.ueventEnvpVals j = some ((message before).length + (ueventEnvStr j).bytes.length) ∧
        e.bytes.drop (ueventEnvStr j).bytes.length ++ [0] <+:
          (message entries ++ rest).drop ((message before).length + (ueventEnvStr j).bytes.length)) ∧
      (begun (scanTurn (message entries ++ rest) (message entries).length) ((message entries).length + 1) scanStart).map
        Scan.ueventEnvp = entryStarts 0 entries ++ [(message entries).length] := by
  obtain ⟨hscan, hbegun⟩ := processUeventBuf_message entries rest
  refine ⟨_, hscan, fun j hno => foldl_examine_other hno scanStart, ?_, hbegun⟩
  rintro j before e later rfl hk hno
  constructor
  · rw [List.foldl_append, List.foldl_cons, foldl_examine_other hno, examine, foldl_examine_ueventEnvp]
    simp [hk, scanStart]
  · have hle : (ueventEnvStr j).bytes.length ≤ e.bytes.length := hk.length_le
    rw [message_append, message_cons, List.append_assoc, ← List.drop_drop, List.drop_left, List.append_assoc,
      List.drop_append_of_le_length hle]
    exact ⟨message later ++ rest, by simp⟩

/-! ## The end of the buffer -/

theorem exists_entries (data : List (BitVec 8)) : ∃ entries tail, data = message entries ++ tail ∧ 0 ∉ tail := by
  induction data with
  | nil => exact ⟨[], [], rfl, by simp⟩
  | cons c data ih =>
    obtain ⟨entries, tail, rfl, htail⟩ := ih
    by_cases hc : c = 0
    · exact ⟨⟨[], by simp⟩ :: entries, tail, by rw [message_cons, hc]; rfl, htail⟩
    · have hcons : ∀ {l : List (BitVec 8)}, 0 ∉ l → 0 ∉ c :: l := fun hl => by
        rw [List.mem_cons, not_or]
        exact ⟨Ne.symm hc, hl⟩
      cases entries with
      | nil => exact ⟨[], c :: tail, rfl, hcons htail⟩
      | cons e entries =>
        exact ⟨⟨c :: e.bytes, hcons e.nulFree⟩ :: entries, tail, by simp [message_cons], htail⟩

theorem skipEntry_tail {e : List (BitVec 8)} (he : 0 ∉ e) : skipEntry e = .error .bounds := by
  induction e with
  | nil => rfl
  | cons c e ih =>
    rw [List.mem_cons, not_or] at he
    rw [skipEntry, if_neg (Ne.symm he.1), ih he.2, error_bind]

theorem strncmpEq_fault {a b : List (BitVec 8)} {n : Nat} {f : Fault} (h : strncmpEq a b n = .error f) :
    f = .bounds := by
  induction n generalizing a b with
  | zero => simp [strncmpEq] at h
  | succ n ih =>
    cases a with
    | nil => simp only [strncmpEq] at h; cases h; rfl
    | cons c a =>
      cases b with
      | nil => simp only [strncmpEq] at h; cases h; rfl
      | cons d b =>
        simp only [strncmpEq] at h
        split at h
        · cases h
        · split at h
          · cases h
          · exact ih h

/-- The comparisons either run off the buffer or leave `uevent_envp`. -/
theorem matchKeys_cases (buf : List (BitVec 8)) (js : List UeventEnv) (s : Scan) :
    js.foldlM (matchKey buf) s = .error .bounds ∨
      ∃ s', js.foldlM (matchKey buf) s = .ok s' ∧ s'.ueventEnvp = s.ueventEnvp := by
  induction js generalizing s with
  | nil => exact .inr ⟨s, rfl, rfl⟩
  | cons i js ih =>
    rw [List.foldlM_cons, matchKey, strlen_mem, ok_bind]
    cases hsame : strncmpEq (buf.drop s.ueventEnvp) (ueventEnvStr i).mem (ueventEnvStr i).bytes.length with
    | error f =>
      rw [strncmpEq_fault hsame, error_bind, error_bind]
      exact .inl rfl
    | ok same =>
      rw [ok_bind]
      cases same with
      | true => exact ih _
      | false => exact ih _

/-- A tail without a NUL that fills the buffer to its end: the scan runs off it. -/
theorem scanTurn_tail {buf : List (BitVec 8)} {buflen : Int} {s : Scan} (h : 0 ∉ buf.drop s.ueventEnvp)
    (hlt : (s.ueventEnvp : Int) < buflen) : scanTurn buf buflen s = .error .bounds := by
  unfold scanTurn
  rw [if_pos hlt]
  rcases matchKeys_cases buf UeventEnv.all s with hkeys | ⟨s', hkeys, hp⟩
  · rw [hkeys, error_bind]
  · rw [hkeys, ok_bind, hp, skipEntry_tail h, error_bind]

theorem processUeventBuf_tail (entries : List CString) (tail : List (BitVec 8)) :
    ∃ n s, s.ueventEnvp = (message entries).length ∧
      (received (message entries ++ tail)).drop s.ueventEnvp =
        tail ++ List.replicate (bufSize - (message entries ++ tail).length) 0 ∧
      processUeventBuf (received (message entries ++ tail)) (message entries ++ tail).length =
        loop (scanTurn (received (message entries ++ tail)) (message entries ++ tail).length) (n + tail.length + 1)
          s := by
  obtain ⟨n, hn⟩ := Nat.exists_eq_add_of_le (length_le_length_message entries)
  have hfuel : (message entries ++ tail).length + 1 = n + tail.length + 1 + entries.length := by
    rw [List.length_append]; omega
  have hbuf : received (message entries ++ tail) =
      message entries ++ (tail ++ List.replicate (bufSize - (message entries ++ tail).length) 0) := by
    rw [received, List.append_assoc]
  obtain ⟨hloop, -⟩ := @loop_entries (received (message entries ++ tail)) _ (message entries ++ tail).length
    (n + tail.length + 1) entries scanStart hbuf (by simp [scanStart])
  have hp : (entries.foldl examine scanStart).ueventEnvp = (message entries).length := by
    rw [foldl_examine_ueventEnvp]
    exact Nat.zero_add _
  refine ⟨n, entries.foldl examine scanStart, hp, ?_, ?_⟩
  · rw [hp, hbuf, List.drop_left]
  · rw [processUeventBuf, Int.toNat_natCast, hfuel, hloop]

theorem getLast?_message {entries : List CString} (h : message entries ≠ []) : (message entries).getLast? = some 0 := by
  induction entries using List.reverseRecOn with
  | nil => exact absurd rfl h
  | append_singleton entries e _ => simp [message_append, message_cons]

theorem getLast?_tail {l tail : List (BitVec 8)} (h : 0 ∉ tail) (hne : tail ≠ []) : (l ++ tail).getLast? ≠ some 0 := by
  rw [List.getLast?_append_of_ne_nil _ hne]
  exact fun h0 => h (List.mem_of_getLast? h0)

theorem processUeventBuf_ends {data : List (BitVec 8)} (h : data.length ≤ bufSize)
    (hnul : data.length < bufSize ∨ data.getLast? = some 0) :
    ∃ s, processUeventBuf (received data) data.length = .ok s := by
  obtain ⟨entries, tail, rfl, htail⟩ := exists_entries data
  obtain ⟨n, s, hp, hbuf, hscan⟩ := processUeventBuf_tail entries tail
  rw [hscan]
  by_cases hne : tail = []
  · subst hne
    exact ⟨s, loop_done (scanTurn_done (by rw [hp]; simp)) _⟩
  · -- A NUL of the `memset` ends the tail.
    have hlt : (message entries ++ tail).length < bufSize := hnul.resolve_right (getLast?_tail htail hne)
    obtain ⟨k, hk⟩ : ∃ k, bufSize - (message entries ++ tail).length = k + 1 := ⟨_, (Nat.succ_pred (by omega)).symm⟩
    rw [hk, List.replicate_succ] at hbuf
    obtain ⟨m, hm⟩ : ∃ m, tail.length = m + 1 := ⟨_, (Nat.succ_pred (by simpa using hne)).symm⟩
    have hlen : (message entries ++ tail).length = (message entries).length + tail.length := List.length_append
    rw [hm, ← Nat.add_assoc,
      loop_next (@scanTurn_entry _ _ (message entries ++ tail).length s ⟨tail, htail⟩ hbuf (by omega))]
    exact ⟨_, loop_done (scanTurn_done (by simp only [examine]; omega)) _⟩

/-- A datagram that fills the buffer and has no NUL at its end. -/
theorem processUeventBuf_runs_off {data : List (BitVec 8)} (h : data.length = bufSize) (hnul : data.getLast? ≠ some 0) :
    processUeventBuf (received data) data.length = .error .bounds := by
  obtain ⟨entries, tail, rfl, htail⟩ := exists_entries data
  obtain ⟨n, s, hp, hbuf, hscan⟩ := processUeventBuf_tail entries tail
  have hne : tail ≠ [] := by
    rintro rfl
    rw [List.append_nil] at hnul h
    exact hnul (getLast?_message fun h0 => by rw [h0] at h; cases h)
  have hlen : (message entries ++ tail).length = (message entries).length + tail.length := List.length_append
  have hpos : 0 < tail.length := List.length_pos_iff.2 hne
  rw [h, Nat.sub_self, List.replicate_zero, List.append_nil] at hbuf
  rw [hscan]
  exact loop_fault (scanTurn_tail (by rwa [hbuf]) (by omega)) _

/-- **When the scan stays inside the buffer.** For every datagram `main` can
receive into it: no byte outside is read exactly when the datagram leaves room
for a NUL or ends in one, and then the scan ends. -/
theorem processUeventBuf_inside_iff {data : List (BitVec 8)} (h : data.length ≤ bufSize) :
    (processUeventBuf (received data) data.length ≠ .error .bounds ↔
      data.length < bufSize ∨ data.getLast? = some 0) ∧
    (data.length < bufSize ∨ data.getLast? = some 0 → ∃ s, processUeventBuf (received data) data.length = .ok s) := by
  refine ⟨⟨fun hin => ?_, fun hnul hout => ?_⟩, processUeventBuf_ends h⟩
  · by_contra hno
    rw [not_or] at hno
    exact hin (processUeventBuf_runs_off (by omega) hno.2)
  · obtain ⟨s, hs⟩ := processUeventBuf_ends h hnul
    rw [hs] at hout
    cases hout

/-- 8192 bytes `A`. -/
theorem processUeventBuf_full_buffer :
    let data : List (BitVec 8) := List.replicate 8192 65
    data.length ≤ bufSize ∧ processUeventBuf (received data) data.length = .error .bounds := by
  have hlen : (List.replicate 8192 (65 : BitVec 8)).length = bufSize := List.length_replicate
  refine ⟨hlen.le, processUeventBuf_runs_off hlen ?_⟩
  rw [List.getLast?_replicate]
  decide

theorem processUeventBuf_inside_iff_sample :
    let data := ascii ['S', 'L', 'O', 'T', '=', '3']
    ∃ s, processUeventBuf (received data) data.length = .ok s :=
  (processUeventBuf_inside_iff (by decide)).2 (.inl (by decide))

end SugarNSpice.RecvNlUevent
