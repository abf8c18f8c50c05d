/-
`test_socket.c`: the loops that count the packets of 256 bytes a server sends
and a client receives, and the alarm that reports and clears the counts.

A turn here goes from one `send` or `recv` to the next, through both loops:
the inner one collects a packet, the outer one counts it. The alarm comes while
a call waits, and the call goes on after its handler. The counters are
`int64_t`s, which do not overflow between two alarms. What the handler prints
is left out.
-/
import SugarNSpice.Loops

namespace SugarNSpice.TestSocket

open CLang

/-- `bytes_in` and the two global counters. -/
structure Counters where
  bytesIn : Nat
  bytesCount : Nat
  pktsCount : Nat
  deriving DecidableEq, Repr

/-- `sizeof(pkt_buf)`. -/
def pktSize : Nat := 256

/-- `sigalrm_hdlr`. It does not reach `bytes_in`, a local of `main`. -/
def sigalrmHdlr (s : Counters) : Counters := { s with bytesCount := 0, pktsCount := 0 }

/-- What follows a call that returned `ret`: the next call, or the program's
exit code, which a failed call decides. -/
def transferTurn (failed : Int → Int) (s : Counters) (ret : Int) : Turn Counters Int :=
  if ret < 0 then .done (failed ret)
  else
    let s := { s with bytesIn := s.bytesIn + ret.toNat, bytesCount := s.bytesCount + ret.toNat }
    if 0 < ret ∧ s.bytesIn < pktSize then .next s
    else .next { s with bytesIn := 0, pktsCount := s.pktsCount + 1 }

/-- The server's loop: an error breaks out of it. -/
def serverTurn : Counters → Int → Turn Counters Int := transferTurn fun _ => 0

/-- What a call can return: -1, 0 for a closed connection, or a number of
bytes up to those it was asked for. -/
def IsResult (s : Counters) (ret : Int) : Prop :=
  ret = -1 ∨ ret = 0 ∨ 0 < ret ∧ s.bytesIn + ret ≤ pktSize

instance (s : Counters) (ret : Int) : Decidable (IsResult s ret) := inferInstanceAs (Decidable (_ ∨ _ ∨ _))

/-- What happens to a loop that waits in a call. -/
inductive Event where
  | returns (ret : Int)
  | sigalrm
  deriving DecidableEq, Repr

/-- The bytes since the last packet was counted, kept beside the program. -/
def sinceCounted (s : Counters) (since : Nat) (ret : Int) : Turn Counters Int → Nat
  | .next s' => if s'.pktsCount = s.pktsCount then since + ret.toNat else 0
  | .done _ => since

/-- Where a loop is, and the bytes since the last packet was counted, after
one more event. -/
def transferStep (turn : Counters → Int → Turn Counters Int) :
    Turn Counters Int × Nat → Event → Turn Counters Int × Nat
  | (.next s, since), .returns ret => (turn s ret, sinceCounted s since ret (turn s ret))
  | (.next s, since), .sigalrm => (.next (sigalrmHdlr s), since)
  | (.done code, since), _ => (.done code, since)

/-- A loop from the start of the program. -/
def transfer (turn : Counters → Int → Turn Counters Int) (es : List Event) : Turn Counters Int × Nat :=
  es.foldl (transferStep turn) (.next ⟨0, 0, 0⟩, 0)

/-- Each of the results is one of a call the loop makes. -/
def AreResults (turn : Counters → Int → Turn Counters Int) (es : List Event) : Prop :=
  ∀ pre ret, pre ++ [.returns ret] <+: es → ∃ s since, transfer turn pre = (.next s, since) ∧ IsResult s ret

/-- The results of the calls between two alarms. -/
def interval (rs : List Int) : List Event := rs.map .returns

end SugarNSpice.TestSocket
