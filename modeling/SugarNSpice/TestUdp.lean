/-
`test_udp.c`: a client that numbers its datagrams, a server that echoes them,
and the network between the two.

The client is `sender` and `recver` called in turn by `main`, which stops at
the first error, or each in a loop of its own thread (`Mode`), until `main`
returns, which can be at any time. The sections under `seq_no_lock` are one
step each, and so is a call of `sendto` or `recvfrom`. The network loses and
doubles datagrams, and hands over any that is on its way, so that it reorders
them as well. Calls may fail.

`my_seq_no` is an `int`: at `INT_MAX` its increment is undefined, and a run
does not go on from there.
-/
import SugarNSpice.CLang
import SugarNSpice.Processes

namespace SugarNSpice.TestUdp

open Processes CLang

structure MyMsg where
  seqNo : Int
  size : Int
  data : List (BitVec 8)
  deriving DecidableEq, Repr

def packetSize : Nat := 4096

def sizeofMyMsg : Nat := 8

def MyMsg.length (msg : MyMsg) : Nat := sizeofMyMsg + msg.data.length

/-- What `recvfrom` puts into a buffer of `sizeof(struct my_msg) + packet_size`. -/
def recvfrom (msg : MyMsg) : MyMsg := { msg with data := msg.data.take packetSize }

def emsgsize : Int := 90

/-- `get_my_seq_number`, on `my_seq_no`: the number, and `my_seq_no` after. -/
def getMySeqNumber (mySeqNo : Int) : Outcome (Int × Int) := do
  let next ← int (mySeqNo + 1)
  return (mySeqNo, next)

/-- `verify_seq_number`. The comparison goes to `rc`, which is not returned,
and the increment to the argument. -/
def verifySeqNumber (mySeqNo seqNo : Int) : Outcome Int := do
  let _rc : Int := if mySeqNo ≠ seqNo then -1 else 0
  let _seqNo ← int (mySeqNo + 1)
  return 0

/-- The message of `sender`; `memset` takes the number as a byte. -/
def newMsg (seqNo : Int) : MyMsg := ⟨seqNo, packetSize, List.replicate packetSize (BitVec.ofInt 8 seqNo)⟩

/-! ## The parties -/

/-- `echo_client` or `echo_thread_client`. -/
inductive Mode where
  | plain
  | threads
  deriving DecidableEq, Repr

/-- `sender` is the thread of that name, or `main` in the plain client, which
calls both functions; `recver` is the other thread. -/
inductive Party where
  | sender
  | recver
  | echoer
  | network
  deriving DecidableEq, Repr

inductive Place where
  /-- Before a call of `sender`. -/
  | sender
  | sendto (msg : MyMsg)
  /-- Before a call of `recver`. -/
  | recver
  | verify (msg : MyMsg)
  /-- Before a call of `echoer`. -/
  | echoer
  | echo (msg : MyMsg)
  /-- Returned from `main`, or never started. -/
  | ended
  | network
  deriving DecidableEq, Repr

/-- A number that `sender` prints after `sendto`; and a full-size message that
`recver` has got, what it returns, and whether it prints that the number is
bad. -/
inductive Event where
  | tx (seqNo : Int)
  | rx (seqNo rc : Int) (bad : Bool)
  deriving DecidableEq, Repr

/-- `my_seq_no`, and the datagrams on their way. -/
structure Shared where
  mySeqNo : Int
  toServer : List MyMsg
  toClient : List MyMsg

/-- Where the client goes on when `sender` has returned `rc`. -/
def Mode.afterSender : Mode → Int → Place
  | .plain, rc => if rc < 0 then .ended else .recver
  | .threads, _ => .sender

/-- Where it goes on when `recver` has. -/
def Mode.afterRecver : Mode → Int → Place
  | .plain, rc => if rc < 0 then .ended else .sender
  | .threads, _ => .recver

inductive senderStep (mode : Mode) : Shared → Place → Option Event → Shared → Place → Prop
  | number {sh seqNo next} : getMySeqNumber sh.mySeqNo = .ok (seqNo, next) →
      senderStep mode sh .sender none { sh with mySeqNo := next } (.sendto (newMsg seqNo))
  | sendto {sh msg} : senderStep mode sh (.sendto msg) (some (.tx msg.seqNo))
      { sh with toServer := msg :: sh.toServer } (mode.afterSender msg.length)
  | sendtoFails {sh msg} {rc : Int} : rc < 0 →
      senderStep mode sh (.sendto msg) (some (.tx msg.seqNo)) sh (mode.afterSender rc)

inductive recverStep (mode : Mode) : Shared → Place → Option Event → Shared → Place → Prop
  | recvfrom {sh msg l l'} : sh.toClient = l ++ msg :: l' → (recvfrom msg).length = sizeofMyMsg + packetSize →
      recverStep mode sh .recver none { sh with toClient := l ++ l' } (.verify (recvfrom msg))
  | recvfromFails {sh} {rc : Int} : rc < 0 → recverStep mode sh .recver none sh (mode.afterRecver rc)
  | badMsg {sh msg l l'} : sh.toClient = l ++ msg :: l' → (recvfrom msg).length ≠ sizeofMyMsg + packetSize →
      recverStep mode sh .recver none { sh with toClient := l ++ l' } (mode.afterRecver (-emsgsize))
  | verify {sh msg rc} : verifySeqNumber sh.mySeqNo msg.seqNo = .ok rc →
      recverStep mode sh (.verify msg) (some (.rx msg.seqNo rc (rc < 0))) sh (mode.afterRecver rc)

/-- The steps of the server, which stops at the first error. -/
inductive echoerStep : Shared → Place → Option Event → Shared → Place → Prop
  | recvfrom {sh msg l l'} : sh.toServer = l ++ msg :: l' →
      echoerStep sh .echoer none { sh with toServer := l ++ l' } (.echo (recvfrom msg))
  | recvfromFails {sh} : echoerStep sh .echoer none sh .ended
  | sendto {sh msg} : echoerStep sh (.echo msg) none { sh with toClient := msg :: sh.toClient } .echoer
  | sendtoFails {sh msg} : echoerStep sh (.echo msg) none sh .ended

/-- What can happen to datagrams on their way. -/
inductive Disturbs : List MyMsg → List MyMsg → Prop
  | drop {msg l l'} : Disturbs (l ++ msg :: l') (l ++ l')
  | duplicate {msg l l'} : Disturbs (l ++ msg :: l') (l ++ msg :: msg :: l')

inductive networkStep : Shared → Shared → Prop
  | toServer {sh l} : Disturbs sh.toServer l → networkStep sh { sh with toServer := l }
  | toClient {sh l} : Disturbs sh.toClient l → networkStep sh { sh with toClient := l }

inductive testUdp (mode : Mode) : Program Party Shared Place Event
  | sender {sh l e sh' l'} : senderStep mode sh l e sh' l' → testUdp mode .sender sh l e sh' l'
  | recver {p sh l e sh' l'} : p = .sender ∨ p = .recver → recverStep mode sh l e sh' l' →
      testUdp mode p sh l e sh' l'
  | echoer {sh l e sh' l'} : echoerStep sh l e sh' l' → testUdp mode .echoer sh l e sh' l'
  | network {sh sh'} : networkStep sh sh' → testUdp mode .network sh .network none sh' .network

/-- Client and server started, nothing sent. -/
def start (mode : Mode) : State Party Shared Place :=
  ⟨⟨0, [], []⟩, fun p =>
    match p with
    | .sender => .sender
    | .recver => if mode = .threads then .recver else .ended
    | .echoer => .echoer
    | .network => .network⟩

abbrev Trace := List (Party × Event)

/-- The numbers sent, in the order of sending. -/
def sent (tr : Trace) : List Int :=
  tr.filterMap fun x =>
    match x.2 with
    | .tx seqNo => some seqNo
    | .rx _ _ _ => none

/-- The numbers of the full-size messages that `recver` has got. -/
def received (tr : Trace) : List Int :=
  tr.filterMap fun x =>
    match x.2 with
    | .tx _ => none
    | .rx seqNo _ _ => some seqNo

end SugarNSpice.TestUdp
