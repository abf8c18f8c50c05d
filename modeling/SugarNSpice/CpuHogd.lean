/-
`cpu_hogd.c`: a daemon that takes commands from a FIFO anyone may write to.

Each iteration opens the FIFO, reads once, and parses what it got: a word goes
to `cmd`, and for some words numbers go to `mask` and `secs`. These three and
`buf` live across the iterations, and a conversion that fails leaves its
variable alone. `buf` and `cmd` start with whatever is on the stack. A pointer
into `buf` is an offset, and an access outside an array is a fault (`bounds`).

`busy` is the wait for the daemon's own alarm, and `fork` the children, one a
processor, that the daemon leaves running. The signal handlers, the calls that
set scheduling and affinity, the messages, and what happens before the loop are
left out.
-/
import SugarNSpice.CpioList
import SugarNSpice.Loops

namespace SugarNSpice.CpuHogd

open CLang Cpio

/-! ## Strings in arrays -/

/-- A `char` array of `n` bytes. -/
structure Chars (n : Nat) where
  bytes : List Byte
  length_eq : bytes.length = n

variable {n : Nat}

/-- Bytes written from the array's start on. -/
def Chars.write (b : Chars n) (bs : List Byte) : Outcome (Chars n) :=
  if h : bs.length ≤ n then
    .ok ⟨bs ++ b.bytes.drop bs.length, by rw [List.length_append, List.length_drop, b.length_eq]; omega⟩
  else .error .bounds

/-- `b[i] = c`. -/
def Chars.put (b : Chars n) (i : Nat) (c : Byte) : Outcome (Chars n) :=
  if i < n then .ok ⟨b.bytes.set i c, by rw [List.length_set, b.length_eq]⟩ else .error .bounds

/-- The string that starts a piece of memory. -/
def str : List Byte → Outcome (List Byte)
  | [] => .error .bounds
  | c :: cs => if c = 0 then .ok [] else do .ok (c :: (← str cs))

/-- `strcmp(a, b) == 0`. -/
def strcmpEq : List Byte → List Byte → Outcome Bool
  | c :: cs, d :: ds => if c ≠ d then .ok false else if c = 0 then .ok true else strcmpEq cs ds
  | _, _ => .error .bounds

/-- The word of a `%s`: what follows the white space, up to more of it. -/
def scanWord (s : List Byte) : List Byte := (scanSpace s).takeWhile (!isSpace ·)

/-- `sscanf(s, "%s", cmd)`: the word and a NUL, if there is a word. -/
def sscanfWord (s : List Byte) (cmd : Chars n) : Outcome (Chars n) :=
  if scanWord s = [] then .ok cmd else cmd.write (scanWord s ++ [0])

/-! ## One message -/

/-- What a `read` into `buf` returned. -/
structure Message where
  bytes : List Byte
  length_le : bytes.length ≤ 128

/-- The variables that live across the iterations. -/
structure Vars where
  buf : Chars 128
  cmd : Chars 32
  mask : BitVec 32
  secs : BitVec 32

/-- One turn of the loop that skips the command, on `buf_ptr`. -/
def skipTurn (buf : List Byte) (bytes bufPtr : Nat) : Outcome (Turn Nat Nat) := do
  let c ← load buf bufPtr
  if c ≠ 0 ∧ bufPtr < bytes then
    if c ≠ 32 then .ok (.next (bufPtr + 1)) else .ok (.done (bufPtr + 1))
  else .ok (.done bufPtr)

/-- The `read`, the NUL after what it got, the command word, and the skip. -/
def parse (buf : Chars 128) (cmd : Chars 32) (m : Message) : Outcome (Chars 128 × Chars 32 × Nat) := do
  let buf ← buf.write m.bytes
  let buf ← buf.put m.bytes.length 0
  let cmd ← sscanfWord (← str buf.bytes) cmd
  let bufPtr ← loop (skipTurn buf.bytes m.bytes.length) (m.bytes.length + 1) 0
  .ok (buf, cmd, bufPtr)

/-- What the daemon does for a message. -/
inductive Action where
  | nothing
  | quit
  | busy (secs : BitVec 32)
  | fork (cpus : List Nat) (secs : BitVec 32)
  deriving DecidableEq, Repr

/-- How an iteration ends: with the `goto`, with the `continue`, or at the
`close`. -/
inductive Exit where
  | quit
  | skip
  | close
  deriving DecidableEq, Repr

def jam (v : Vars) (s : List Byte) : Action × Exit × Vars :=
  let secs := ((scanInt s).map (·.1)).getD v.secs
  (if 0 < secs.toInt ∧ secs.toInt < 120 then .busy secs else .nothing, .close, { v with secs := secs })

/-- `sscanf(s, "%d %d", &mask, &secs)`. -/
def sscanfHydra (s : List Byte) (mask secs : BitVec 32) : BitVec 32 × BitVec 32 :=
  match scanInt s with
  | none => (mask, secs)
  | some (mask, s) =>
    match scanInt (scanSpace s) with
    | none => (mask, secs)
    | some (secs, _) => (mask, secs)

/-- The loop over the mask: `mask`, `cpu`, and the processors that got a
hogger. -/
structure Hydra where
  mask : BitVec 32
  cpu : Nat
  hogged : List Nat

/-- One turn of it. -/
def hydraTurn (s : Hydra) : Outcome (Turn Hydra Hydra) :=
  if s.mask.toInt < 16 ∧ s.mask ≠ 0 ∧ s.cpu < 4 then
    let lastBit := s.mask &&& 1
    let s := { s with mask := s.mask.sshiftRight 1, cpu := s.cpu + 1 }
    if lastBit = 0 then .ok (.next s) else .ok (.next { s with hogged := s.hogged ++ [s.cpu - 1] })
  else .ok (.done s)

def hydra (v : Vars) (s : List Byte) : Outcome (Action × Exit × Vars) :=
  let (mask, secs) := sscanfHydra s v.mask v.secs
  let v := { v with mask := mask, secs := secs }
  if mask = -1 ∨ secs = -1 then .ok (.quit, .quit, v)
  else if 100 < secs.toInt then .ok (.nothing, .skip, v)
  else do
    let s ← loop hydraTurn 5 ⟨mask, 0, []⟩
    .ok (if s.hogged = [] then .nothing else .fork s.hogged secs, .close, { v with mask := s.mask })

def quitWord : List Byte := ascii ['q', 'u', 'i', 't']

def jamWord : List Byte := ascii ['j', 'a', 'm']

def hydraWord : List Byte := ascii ['h', 'y', 'd', 'r', 'a']

/-- The chain of `strcmp`s, with `buf_ptr` behind the command. -/
def dispatch (v : Vars) (bufPtr : Nat) : Outcome (Action × Exit × Vars) := do
  let isQuit ← strcmpEq v.cmd.bytes (quitWord ++ [0])
  if isQuit then .ok (.quit, .quit, v)
  else do
    let isJam ← strcmpEq v.cmd.bytes (jamWord ++ [0])
    if isJam then do
      let s ← str (v.buf.bytes.drop bufPtr)
      .ok (jam v s)
    else do
      let isHydra ← strcmpEq v.cmd.bytes (hydraWord ++ [0])
      if isHydra then do
        let s ← str (v.buf.bytes.drop bufPtr)
        hydra v s
      else .ok (.nothing, .close, v)

/-- An iteration from its `read` on. -/
def command (v : Vars) (m : Message) : Outcome (Action × Exit × Vars) := do
  let (buf, cmd, bufPtr) ← parse v.buf v.cmd m
  dispatch { v with buf := buf, cmd := cmd } bufPtr

/-! ## The loop -/

/-- What the calls of an iteration come to. -/
inductive Event where
  | openFails
  | readFails (fd : Nat)
  | read (fd : Nat) (m : Message)

/-- The daemon at the top of its loop; `fds` are the descriptors it has on the
FIFO. -/
structure Daemon where
  vars : Vars
  fds : List Nat

/-- `open` returned `fd`. -/
def Daemon.opened (d : Daemon) (fd : Nat) : Daemon := { d with fds := fd :: d.fds }

/-- `close(fd)`. -/
def Daemon.closed (d : Daemon) (fd : Nat) : Daemon := { d with fds := d.fds.erase fd }

/-- One iteration: what it does, and the daemon at the next, unless it has
left the loop. -/
def iteration (d : Daemon) : Event → Outcome (Action × Option Daemon)
  | .openFails => .ok (.quit, none)
  | .readFails _ => .ok (.quit, none)
  | .read fd m => do
    let d := d.opened fd
    let (action, how, v) ← command d.vars m
    let d := { d with vars := v }
    match how with
    | .quit => .ok (action, none)
    | .skip => .ok (action, some d)
    | .close => .ok (action, some (d.closed fd))

/-- The loop over what its calls come to: the daemon at the top, unless it has
left the loop. -/
def run : Daemon → List Event → Outcome (Option Daemon)
  | d, [] => .ok (some d)
  | d, e :: es => do
    match (← iteration d e).2 with
    | none => .ok none
    | some d => run d es

/-- The daemon when it comes to the loop; the arrays hold anything. -/
def start (buf : Chars 128) (cmd : Chars 32) : Daemon := ⟨⟨buf, cmd, 1, 60⟩, []⟩

end SugarNSpice.CpuHogd
