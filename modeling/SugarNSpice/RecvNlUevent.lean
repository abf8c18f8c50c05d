/-
`recv_nl_uevent.c`: the scan of a kernel uevent, a datagram of NUL-terminated
`KEY=value` entries.

`uevent_envp` is an offset into the buffer, and so is each entry of
`uevent_envp_vals`, with `none` for `NULL`. The buffer is all the memory there
is: a read past its end is a fault (`bounds`). The printing after the scan is
left out.
-/
import SugarNSpice.Strstr

namespace SugarNSpice.RecvNlUevent

open CLang Strstr

/-- `enum uevent_env_indices`, up to `UEVENT_ENV_MAX`. -/
inductive UeventEnv where
  | action
  | subsystem
  | devpath
  | devtype
  | physdevbus
  | physdevdriver
  | physdevpath
  | slot
  deriving DecidableEq, Repr

def UeventEnv.all : List UeventEnv :=
  [.action, .subsystem, .devpath, .devtype, .physdevbus, .physdevdriver, .physdevpath, .slot]

def ueventEnvStr : UeventEnv → CString
  | .action => ⟨ascii ['A', 'C', 'T', 'I', 'O', 'N', '='], by decide⟩
  | .subsystem => ⟨ascii ['S', 'U', 'B', 'S', 'Y', 'S', 'T', 'E', 'M', '='], by decide⟩
  | .devpath => ⟨ascii ['D', 'E', 'V', 'P', 'A', 'T', 'H', '='], by decide⟩
  | .devtype => ⟨ascii ['D', 'E', 'V', 'T', 'Y', 'P', 'E', '='], by decide⟩
  | .physdevbus => ⟨ascii ['P', 'H', 'Y', 'S', 'D', 'E', 'V', 'B', 'U', 'S', '='], by decide⟩
  | .physdevdriver =>
    ⟨ascii ['P', 'H', 'Y', 'S', 'D', 'E', 'V', 'D', 'R', 'I', 'V', 'E', 'R', '='], by decide⟩
  | .physdevpath => ⟨ascii ['P', 'H', 'Y', 'S', 'D', 'E', 'V', 'P', 'A', 'T', 'H', '='], by decide⟩
  | .slot => ⟨ascii ['S', 'L', 'O', 'T', '='], by decide⟩

/-- The locals of the scan; `hits` is the source's `matches`. -/
structure Scan where
  ueventEnvp : Nat
  ueventEnvpVals : UeventEnv → Option Nat
  hits : Nat

/-- The body of the `for` over the keys. -/
def matchKey (buf : List (BitVec 8)) (s : Scan) (j : UeventEnv) : Outcome Scan := do
  let len ← strlen (ueventEnvStr j).mem
  let same ← strncmpEq (buf.drop s.ueventEnvp) (ueventEnvStr j).mem len
  if same then
    .ok { s with
      ueventEnvpVals := Function.update s.ueventEnvpVals j (some (s.ueventEnvp + len))
      hits := s.hits + 1 }
  else .ok s

/-- `while(*uevent_envp++);` on the memory from `uevent_envp` on: how many
bytes it passes. -/
def skipEntry : List (BitVec 8) → Outcome Nat
  | [] => .error .bounds
  | c :: cs => if c = 0 then .ok 1 else do .ok ((← skipEntry cs) + 1)

def scanTurn (buf : List (BitVec 8)) (buflen : Int) (s : Scan) : Outcome (Turn Scan Scan) :=
  if (s.ueventEnvp : Int) < buflen then do
    let s ← UeventEnv.all.foldlM (matchKey buf) s
    let n ← skipEntry (buf.drop s.ueventEnvp)
    .ok (.next { s with ueventEnvp := s.ueventEnvp + n })
  else .ok (.done s)

def scanStart : Scan := ⟨0, fun _ => none, 0⟩

/-- `process_uevent_buf`, up to the end of its scan. -/
def processUeventBuf (buf : List (BitVec 8)) (buflen : Int) : Outcome Scan :=
  loop (scanTurn buf buflen) (buflen.toNat + 1) scanStart

/-- `sizeof(buf)` in `main`. -/
def bufSize : Nat := 8192

/-- `main`'s buffer when `recvmsg` has put `data` into it. -/
def received (data : List (BitVec 8)) : List (BitVec 8) := data ++ List.replicate (bufSize - data.length) 0

end SugarNSpice.RecvNlUevent
