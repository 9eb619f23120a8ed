import Xv6SnifferBakery.Sniffer.Parser

/-!
# Storage and sessions

`packet_storage.c`, the callback `parse_packet`, and the sessions of `main`. Every call of `malloc` that succeeds gives a block never
given before; which calls succeed is part of the run. The two counters are kept apart as they are in the source: the one of the live
view in `packet_parser.c`, and the one of the storage, which here is the length of the list of stored packets.
-/

namespace Xv6SnifferBakery.Sniffer

open Lib

def maxPackets : Nat := 10000

/-- `stored_packet_t`, with the block it lies in. -/
structure StoredPacket where
  self : Nat
  header : PcapPkthdr
  data : Ptr

/-- What the sniffer holds. The calls of `free` are kept in order. -/
structure State where
  mem : Mem
  next : Nat
  freed : List Nat
  packetStorage : List StoredPacket
  packetCount : Nat

/-- Whether the allocations of a call of `store_packet` succeed. -/
structure Alloc where
  container : Bool
  data : Bool

namespace State

def storedPacketCount (s : State) : Nat := s.packetStorage.length

/-- `malloc`. -/
def malloc (ok : Bool) (s : State) : Option (Nat × State) := if ok then some (s.next, { s with next := s.next + 1 }) else none

/-- `free`. -/
def free (s : State) (block : Nat) : State := { s with freed := s.freed ++ [block] }

/-- `memcpy` to the start of a block. -/
def memcpy (s : State) (block : Nat) (bytes : List UInt8) : State :=
  { s with mem := fun a => if a.block = block then bytes[a.off]?.getD (s.mem a) else s.mem a }

/-- `store_packet`. -/
def storePacket (alloc : Alloc) (header : PcapPkthdr) (packet : Ptr) (s : State) : Code State :=
  if maxPackets ≤ s.storedPacketCount then pure s
  else
    match s.malloc alloc.container with
    | none => do
      print [.message "Failed to allocate memory for stored packet"]
      pure s
    | some (self, s) =>
      match s.malloc alloc.data with
      | none => do
        print [.message "Failed to allocate memory for packet data"]
        pure (s.free self)
      | some (data, s) => do
        let bytes ← octets packet header.caplen.toNat
        let s := s.memcpy data bytes
        pure { s with packetStorage := s.packetStorage ++ [⟨self, header, ⟨data, 0⟩⟩] }

/-- The loop of `free_packet_storage`. -/
def freeEach : List StoredPacket → State → State
  | [], s => s
  | sp :: sps, s => freeEach sps ((s.free sp.data.block).free sp.self)

/-- `free_packet_storage`. -/
def freePacketStorage (s : State) : State :=
  if s.storedPacketCount = 0 then s else { freeEach s.packetStorage s with packetStorage := [] }

/-- `reset_packet_counter`. -/
def resetPacketCounter (s : State) : State := { s with packetCount := 0 }

/-- `parse_packet`. -/
def parsePacket (alloc : Alloc) (header : PcapPkthdr) (packet : Ptr) (s : State) : Code State := do
  let s := { s with packetCount := s.packetCount + 1 }
  let s ← s.storePacket alloc header packet
  print [.heading s.packetCount header.tvSec header.tvUsec (asInt header.len)]
  parseEthernet packet
  pure s

end State

/-! ## Sessions -/

/-- A call of the callback: the header and the frame `pcap_dispatch` passes, and how the allocations go. Of the frame, the first
`caplen` bytes were captured; what lies behind them is whatever the buffer holds. -/
structure Capture where
  header : PcapPkthdr
  frame : Nat → UInt8
  alloc : Alloc

namespace Capture

/-- The captured bytes. -/
def bytes (c : Capture) : List UInt8 := (List.range c.header.caplen.toNat).map c.frame

end Capture

/-- The buffer of libpcap. -/
def pcapBuffer : Nat := 0

/-- Where the frame lies. -/
def packetPtr : Ptr := ⟨pcapBuffer, 0⟩

namespace State

/-- Nothing stored; the memory is what it is. -/
def init (mem : Mem) : State := ⟨mem, pcapBuffer + 1, [], [], 0⟩

/-- The next frame in the buffer. -/
def deliver (c : Capture) (s : State) : State :=
  { s with mem := fun a => if a.block = pcapBuffer then c.frame a.off else s.mem a }

/-- The callback on a frame. -/
def callback (c : Capture) (s : State) : Code State := (s.deliver c).parsePacket c.alloc c.header packetPtr

/-- `pcap_dispatch` for one frame. -/
def dispatch (s : State) (c : Capture) : State := (s.callback c).run (s.deliver c).mem

/-- What is printed for it. -/
def live (s : State) (c : Capture) : List Shown := (s.callback c).out (s.deliver c).mem

/-- What `main` does before `start_sniffing`. -/
def startSession (s : State) : State := s.freePacketStorage.resetPacketCounter

/-- A session with the frames it captures. -/
def session (s : State) (captures : List Capture) : State := captures.foldl dispatch s.startSession

/-- Sessions one after the other. -/
def sessions (mem : Mem) (history : List (List Capture)) : State := history.foldl session (init mem)

/-- The number in a heading. -/
def packetNumber : List Shown → Option Int
  | [] => none
  | .heading number _ _ _ :: _ => some number
  | _ :: rest => packetNumber rest

/-- The frames displayed from a state on, each with the number in its heading. -/
def displayed (s : State) : List Capture → List (Option Int × Capture)
  | [] => []
  | c :: cs => (packetNumber (s.live c), c) :: displayed (s.dispatch c) cs

end State

end Xv6SnifferBakery.Sniffer
