import Xv6SnifferBakery.Sniffer.Storage

/-!
# The inspector

`inspector.c`: the summary of the stored packets, the details of one, and its hex dump. The source writes the part for TCP and the part
for UDP out twice, under IPv4 and under IPv6; the two copies are the same code and are one definition here.
-/

namespace Xv6SnifferBakery.Sniffer

open Lib

/-! ## `print_full_hex_dump` -/

/-- The body of the loop. -/
def printHexDumpByte (data : Ptr) (len i : Nat) : Code Unit := do
  Prog.onlyIf (i % 16 = 0) do
    put (.style cDim)
    put (.offset i)
    put (.style cReset)
  let b ← Prog.fetch (data + i)
  put (.style cData)
  put (.octet (data + i) b)
  put (.style cReset)
  Prog.onlyIf (i % 16 = 7) (put (.text " "))
  Prog.onlyIf (i % 16 = 15 ∨ i + 1 = len) do
    let padding := if i % 16 = 15 then 0 else 15 - i % 16
    printPadding padding
    Prog.onlyIf (8 ≤ padding) (put (.text " "))
    put (.style cData)
    put (.text "| ")
    put (.style cReset)
    printAscii data (i - i % 16) i
    put (.text "\n")

def printFullHexDump (data : Ptr) (len : Int) : Code Unit :=
  Prog.each (printHexDumpByte data len.toNat) (List.range len.toNat)

/-! ## `print_packet_details` -/

/-- A loop that prints the bytes of a header. -/
def printRaw (p : Ptr) (n : Nat) : Code Unit := do
  let bytes ← octets p n
  print [.raw bytes]

def detailsTcp (tcpPtr : Ptr) : Code Unit := do
  let srcPort ← thSport tcpPtr
  let dstPort ← thDport tcpPtr
  let seq ← thSeq tcpPtr
  let ack ← thAck tcpPtr
  let off ← thOff tcpPtr
  let sum ← thSum tcpPtr
  print [.layer .tcp, .field .thSport (.num srcPort), .field .thDport (.num dstPort), .field .thSeq (.num seq),
    .field .thAck (.num ack), .field .thOff (.num (off * 4 : Nat)), .field .thSum (.hex sum)]
  printRaw tcpPtr (off * 4)

def detailsUdp (udpPtr : Ptr) : Code Unit := do
  let srcPort ← uhSport udpPtr
  let dstPort ← uhDport udpPtr
  let udpLen ← uhUlen udpPtr
  let sum ← uhSum udpPtr
  print [.layer .udp, .field .uhSport (.num srcPort), .field .uhDport (.num dstPort), .field .uhUlen (.num udpLen),
    .field .uhSum (.hex sum)]
  printRaw udpPtr 8

def detailsIpv4 (ipPtr : Ptr) : Code Unit := do
  let src ← ipSrc ipPtr
  let dst ← ipDst ipPtr
  let frag ← ipOff ipPtr
  let v ← ipV ipPtr
  let hl ← ipHl ipPtr
  let totalLen ← ipLen ipPtr
  let ttl ← ipTtl ipPtr
  let proto ← ipP ipPtr
  print [.layer .ipv4, .field .ipV (.num v), .field .ipHl (.num (hl * 4 : Nat)), .field .ipLen (.num totalLen),
    .field .ipTtl (.num ttl), .field .ipP (.num proto), .field .ipProtoName (.name (protoName proto)), .field .ipSrc (.ip src),
    .field .ipDst (.ip dst)]
  print (fragment frag)
  printRaw ipPtr (hl * 4)
  if proto = ipprotoTcp then detailsTcp (ipPtr + hl * 4)
  else if proto = ipprotoUdp then detailsUdp (ipPtr + hl * 4)

def detailsIpv6 (ip6Ptr : Ptr) : Code Unit := do
  let src ← ip6Src ip6Ptr
  let dst ← ip6Dst ip6Ptr
  let vtcFlow ← ip6Vtc ip6Ptr
  let nxt ← ip6Nxt ip6Ptr
  let hlim ← ip6Hlim ip6Ptr
  print [.layer .ipv6, .field .ipSrc (.ip6 src), .field .ipDst (.ip6 dst), .field .ip6Nxt (.num nxt), .field .ip6Hlim (.num hlim),
    .field .ip6Class (.num (trafficClass vtcFlow)), .field .ip6Flow (.hex (flowLabel vtcFlow))]
  printRaw ip6Ptr ip6HdrSize
  if nxt = ipprotoTcp then detailsTcp (ip6Ptr + ip6HdrSize)
  else if nxt = ipprotoUdp then detailsUdp (ip6Ptr + ip6HdrSize)

def detailsArp (arpPtr : Ptr) : Code Unit := do
  let sip ← arpSpa arpPtr
  let tip ← arpTpa arpPtr
  let op ← arOp arpPtr
  let sha ← arpSha arpPtr
  let tha ← arpTha arpPtr
  let hrd ← arHrd arpPtr
  let pro ← arPro arpPtr
  let hln ← arHln arpPtr
  let pln ← arPln arpPtr
  print [.layer .arp, .field .arOp (.operation (decide (op = arpopRequest)))]
  print [.field .arpSha (.mac sha), .field .arpSpa (.ip sip), .field .arpTha (.mac tha), .field .arpTpa (.ip tip)]
  print [.field .arHrd (.num hrd), .field .arPro (.hex pro), .field .arHln (.num hln), .field .arPln (.num pln)]
  printRaw arpPtr etherArpSize

/-- The headers from layer 3 on. -/
def detailsLayer3 (packet : Ptr) (type : Nat) : Code Unit :=
  if type = ethertypeIp then detailsIpv4 (packet + etherHeaderSize)
  else if type = ethertypeIpv6 then detailsIpv6 (packet + etherHeaderSize)
  else if type = ethertypeArp then detailsArp (packet + etherHeaderSize)
  else pure ()

/-- `print_packet_details` for a stored packet. The length shown as captured is `len`, and so is the length of the dump. -/
def packetDetails (packetId : Nat) (sp : StoredPacket) : Code Unit := do
  let packet := sp.data
  print [.heading packetId sp.header.tvSec sp.header.tvUsec (asInt sp.header.len)]
  let type ← etherType packet
  let dhost ← etherDhost packet
  let shost ← etherShost packet
  print [.field .etherDhost (.mac dhost), .field .etherShost (.mac shost), .field .etherType (.hex type),
    .field .etherName (.name (etherName type))]
  printRaw packet etherHeaderSize
  detailsLayer3 packet type
  print [.dump (asInt sp.header.len)]
  printFullHexDump packet (asInt sp.header.len)

/-! ## `get_summary_info` -/

/-- The line written to the buffer, which is long enough for each of them. -/
def getSummaryInfo (packetData : Ptr) : Code (List Shown) := do
  let type ← etherType packetData
  if type = ethertypeIp then do
    let ip := packetData + etherHeaderSize
    let src ← ipSrc ip
    let dst ← ipDst ip
    let proto ← ipP ip
    if proto = ipprotoTcp then do
      let hl ← ipHl ip
      let sport ← thSport (packetData + (etherHeaderSize + hl * 4))
      let dport ← thDport (packetData + (etherHeaderSize + hl * 4))
      pure [.layer .ipv4, .layer .tcp, .field .ipSrc (.ip src), .field .thSport (.num sport), .field .ipDst (.ip dst),
        .field .thDport (.num dport)]
    else if proto = ipprotoUdp then do
      let hl ← ipHl ip
      let sport ← uhSport (packetData + (etherHeaderSize + hl * 4))
      let dport ← uhDport (packetData + (etherHeaderSize + hl * 4))
      pure [.layer .ipv4, .layer .udp, .field .ipSrc (.ip src), .field .uhSport (.num sport), .field .ipDst (.ip dst),
        .field .uhDport (.num dport)]
    else pure [.layer .ipv4, .field .ipSrc (.ip src), .field .ipDst (.ip dst)]
  else if type = ethertypeArp then do
    let arp := packetData + etherHeaderSize
    let sip ← arpSpa arp
    let tip ← arpTpa arp
    pure [.layer .arp, .field .arpSpa (.ip sip), .field .arpTpa (.ip tip)]
  else if type = ethertypeIpv6 then do
    let ip6 := packetData + etherHeaderSize
    let src ← ip6Src ip6
    let dst ← ip6Dst ip6
    let nxt ← ip6Nxt ip6
    let nh : Shown :=
      if nxt = ipprotoTcp then .layer .tcp else if nxt = ipprotoUdp then .layer .udp else .message "Other"
    pure [.layer .ipv6, nh, .field .ipSrc (.ip6 src), .field .ipDst (.ip6 dst)]
  else pure [.message "Other      Unknown L3 protocol"]

/-! ## `inspect_session` -/

namespace State

/-- `print_session_summary`. -/
def printSessionSummary (s : State) : Code Unit :=
  Prog.each
    (fun (entry : StoredPacket × Nat) => do
      let summary ← getSummaryInfo entry.1.data
      print (.entry (entry.2 + 1) (asInt entry.1.header.len) :: summary))
    s.packetStorage.zipIdx

/-- `print_packet_details`. -/
def printPacketDetails (packetId : Nat) (s : State) : Code Unit :=
  match s.packetStorage[packetId - 1]? with
  | none => pure ()
  | some sp => packetDetails packetId sp

/-- `inspect_session`, with what `scanf` reads. -/
def inspectSession (choice : Option Int) (s : State) : Code Unit := do
  if s.storedPacketCount = 0 then print [.message "No packets in storage. Run a sniffing session first."]
  else do
    s.printSessionSummary
    match choice with
    | none => print [.message "Invalid input."]
    | some choice =>
      if choice = 0 then pure ()
      else if choice < 1 ∨ (s.storedPacketCount : Int) < choice then print [.message "Invalid Packet ID."]
      else s.printPacketDetails choice.toNat

end State

end Xv6SnifferBakery.Sniffer
