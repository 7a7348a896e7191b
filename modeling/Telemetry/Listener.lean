import Telemetry.Intake

/-!
# Listening for datagrams

A listener takes submission lines for one project from datagrams.  The network hands over at most as
much of a datagram as the receive buffer holds; an empty datagram is ignored.  Each other one becomes
an envelope with a single item, received when it arrives; its merges read the clock after that.
-/

namespace Telemetry

open Bytes

/-! ## Addresses -/

/-- An IPv4 address. -/
structure Address where
  octets : List UInt8
  deriving DecidableEq, Repr

namespace Address

/-- A number up to 255 in at most three digits without leading zeros. -/
def octet? (s : Bytes) : Option UInt8 :=
  (decimal? s).bind fun n =>
    if n < 256 ∧ s.length ≤ 3 ∧ (s.length = 1 ∨ s.head? ≠ some (byte '0')) then
      some (UInt8.ofNat n)
    else none

/-- Four octets with points between them. -/
def parse? (s : Bytes) : Option Address :=
  match (split (byte '.') s).mapM octet? with
  | some [a, b, c, d] => some ⟨[a, b, c, d]⟩
  | _ => none

end Address

/-! ## Listeners -/

/-- A listener cannot be started. -/
inductive Listener.Fault where
  | invalidAddress (host : Bytes)
  | cannotBind
  deriving DecidableEq

def Listener.Fault.message : Listener.Fault → Bytes
  | .invalidAddress host => untilNul (ascii "Invalid UDP listen address: " ++ host)
  | .cannotBind => ascii "Failed to bind UDP socket"

/-- A datagram from the network, with the clock readings that it meets. -/
structure Listener.Datagram where
  content : Bytes
  /-- The reading when it is received. -/
  received : UInt64
  /-- The readings at its merges. -/
  clock : Intake.Clock

/-- What a buffer of a size holds of a datagram. -/
def Listener.Datagram.cut (size : Nat) (d : Datagram) : Datagram :=
  { d with content := d.content.take size }

structure Listener where
  host : Bytes
  /-- Whose data arrives. -/
  project : Project
  /-- The length of the receive buffer. -/
  buffer : Nat
  /-- Datagrams taken, and those of them refused. -/
  received : Nat := 0
  rejected : Nat := 0

namespace Listener

/-- The longest datagram. -/
def maxDatagram : Nat := 65507

/-- A listener whose buffer holds at least one byte and at most the longest datagram. -/
def create (host : Bytes) (buffer : Nat) (project : Project) : Listener :=
  { host, project, buffer := min (max buffer 1) maxDatagram }

/-- What starting to listen fails with: the host has to be an address, any address, and another
listener may have taken it. -/
def fault? (l : Listener) (taken : Bool) : Option Fault :=
  match Address.parse? (untilNul l.host) with
  | none => some (.invalidAddress l.host)
  | some _ => if taken then some .cannotBind else none

/-- The envelope that a datagram becomes. -/
def envelope (l : Listener) (now : UInt64) (data : Bytes) : Envelope :=
  ⟨l.project.scope.project, none, now, [⟨.metrics, data, false⟩]⟩

/-- Takes in the contents of a datagram, as far as the buffer holds them. -/
def handle (phase : Phase) (d : Datagram) (l : Listener) (s : Intake) :
    Except Extraction.EncodingError (Listener × Intake) :=
  (s.process phase d.clock (l.envelope d.received d.content) l.project).map fun (s, report) =>
    (if report.accepted then l else { l with rejected := l.rejected + 1 }, s)

/-- Takes in a datagram from the network, cut to the buffer. -/
def receive (phase : Phase) (d : Datagram) (l : Listener) (s : Intake) :
    Except Extraction.EncodingError (Listener × Intake) :=
  if d.content.isEmpty then .ok (l, s)
  else handle phase (d.cut l.buffer) { l with received := l.received + 1 } s

/-- Takes in datagrams in the order in which they arrive. -/
def receiveAll (phase : Phase) (datagrams : List Datagram) (l : Listener) (s : Intake) :
    Except Extraction.EncodingError (Listener × Intake) :=
  datagrams.foldlM (fun (l, s) d => receive phase d l s) (l, s)

end Listener

end Telemetry
