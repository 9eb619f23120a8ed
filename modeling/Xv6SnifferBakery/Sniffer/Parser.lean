import Xv6SnifferBakery.Sniffer.Frame

/-!
# The live view

`packet_parser.c` from `parse_ethernet` on. A header is read wherever the lengths announced below it put it; how much of the frame was
captured is not known to any of these functions.
-/

namespace Xv6SnifferBakery.Sniffer

open Lib

def cReset : String := "\x1b[0m"
def cBold : String := "\x1b[1m"
def cDim : String := "\x1b[2m"
def cData : String := "\x1b[0;90m"

/-! ## Helper functions -/

def getServiceName (port : Nat) : String :=
  if port = 80 then "HTTP"
  else if port = 443 then "HTTPS"
  else if port = 53 then "DNS"
  else if port = 20 ∨ port = 21 then "FTP"
  else if port = 22 then "SSH"
  else if port = 25 then "SMTP"
  else "Other"

/-- The names `print_tcp_flags` prints. -/
def tcpFlagNames (flags : Nat) : List String :=
  (if flags.testBit 0 then ["FIN"] else []) ++ (if flags.testBit 1 then ["SYN"] else []) ++
    (if flags.testBit 2 then ["RST"] else []) ++ (if flags.testBit 3 then ["PSH"] else []) ++
    (if flags.testBit 4 then ["ACK"] else []) ++ (if flags.testBit 5 then ["URG"] else [])

/-- `proto_name`, and `nh_name` for IPv6. -/
def protoName (p : Nat) : String := if p = ipprotoTcp then "TCP" else if p = ipprotoUdp then "UDP" else "Other"

/-- The columns left empty in the last row: an entry for each. -/
def printPadding (n : Nat) : Code Unit := Prog.each (fun _ => put (.text "   ")) (List.range n)

/-- The bytes at `first`, `first + 1`, .. up to `last` as characters. -/
def printAscii (data : Ptr) (first last : Nat) : Code Unit :=
  Prog.each
    (fun j => do
      let b ← Prog.fetch (data + j)
      put (.style cBold)
      put (.glyph (data + j) b)
      put (.style cReset))
    (List.range' first (last + 1 - first))

/-- The body of the loop of `print_payload`. -/
def printPayloadByte (payload : Ptr) (lenToPrint i : Nat) : Code Unit := do
  Prog.onlyIf (i % 16 = 0) do
    put (.style cDim)
    put (.text "                | ")
    put (.style cReset)
  let b ← Prog.fetch (payload + i)
  put (.style cData)
  put (.octet (payload + i) b)
  put (.style cReset)
  Prog.onlyIf (i % 16 = 15 ∨ i + 1 = lenToPrint) do
    Prog.onlyIf (i % 16 ≠ 15) (printPadding (15 - i % 16))
    put (.style cData)
    put (.text " ")
    put (.style cReset)
    printAscii payload (i - i % 16) i
    put (.text "\n")

def printPayload (payload : Ptr) (len : Int) : Code Unit :=
  let lenToPrint : Int := if 64 < len then 64 else len
  Prog.each (printPayloadByte payload lenToPrint.toNat) (List.range lenToPrint.toNat)

/-! ## Layer 4 -/

def parseTcp (packet : Ptr) (ipHeaderLen totalIpLen : Nat) : Code Unit := do
  let srcPort ← thSport packet
  let dstPort ← thDport packet
  let off ← thOff packet
  let tcpHeaderLen := off * 4
  let flags ← thFlags packet
  let seq ← thSeq packet
  let ack ← thAck packet
  let win ← thWin packet
  let sum ← thSum packet
  print [.layer .tcp, .field .thSport (.num srcPort), .service (getServiceName srcPort), .field .thDport (.num dstPort),
    .service (getServiceName dstPort), .field .thFlags (.flags (tcpFlagNames flags))]
  print [.field .thSeq (.num seq), .field .thAck (.num ack), .field .thWin (.num win), .field .thOff (.num tcpHeaderLen),
    .field .thSum (.hex sum)]
  let payloadLen : Int := totalIpLen - ipHeaderLen - tcpHeaderLen
  Prog.onlyIf (0 < payloadLen) do
    print [.payload payloadLen (getServiceName dstPort)]
    printPayload (packet + tcpHeaderLen) payloadLen

/-- Neither length of the layer below is used. -/
def parseUdp (packet : Ptr) (_ipHeaderLen _totalIpLen : Nat) : Code Unit := do
  let srcPort ← uhSport packet
  let dstPort ← uhDport packet
  let udpLen ← uhUlen packet
  let sum ← uhSum packet
  print [.layer .udp, .field .uhSport (.num srcPort), .service (getServiceName srcPort), .field .uhDport (.num dstPort),
    .service (getServiceName dstPort)]
  print [.field .uhUlen (.num udpLen), .field .uhSum (.hex sum)]
  let payloadLen : Int := udpLen - 8
  Prog.onlyIf (0 < payloadLen) do
    print [.payload payloadLen (getServiceName dstPort)]
    printPayload (packet + 8) payloadLen

/-! ## Layer 3 -/

/-- The flags and the offset of a fragment, in bytes. -/
def fragment (frag : Nat) : List Shown :=
  [.field .ipFlags (.fragment (decide (frag &&& ipDf ≠ 0)) (decide (frag &&& ipMf ≠ 0))),
    .field .ipOff (.num ((frag &&& ipOffmask) * 8 : Nat))]

def parseIpv4 (packet : Ptr) : Code Unit := do
  let src ← ipSrc packet
  let dst ← ipDst packet
  let hl ← ipHl packet
  let ipHeaderLen := hl * 4
  let totalLen ← ipLen packet
  let frag ← ipOff packet
  let proto ← ipP packet
  let ttl ← ipTtl packet
  let id ← ipId packet
  print [.layer .ipv4, .field .ipSrc (.ip src), .field .ipDst (.ip dst)]
  print [.field .ipProtoName (.name (protoName proto)), .field .ipP (.num proto), .field .ipTtl (.num ttl), .field .ipId (.hex id),
    .field .ipHl (.num ipHeaderLen)]
  print (.field .ipLen (.num totalLen) :: fragment frag)
  if proto = ipprotoTcp then parseTcp (packet + ipHeaderLen) ipHeaderLen totalLen
  else if proto = ipprotoUdp then parseUdp (packet + ipHeaderLen) ipHeaderLen totalLen

/-- `(vtc_flow >> 20) & 0xFF` and the low twenty bits. -/
def trafficClass (vtcFlow : Nat) : Nat := vtcFlow >>> 20 &&& 0xff

def flowLabel (vtcFlow : Nat) : Nat := vtcFlow &&& 0x000fffff

def parseIpv6 (packet : Ptr) : Code Unit := do
  let src ← ip6Src packet
  let dst ← ip6Dst packet
  let payloadLen ← ip6Plen packet
  let vtcFlow ← ip6Vtc packet
  let nxt ← ip6Nxt packet
  let hlim ← ip6Hlim packet
  print [.layer .ipv6, .field .ipSrc (.ip6 src), .field .ipDst (.ip6 dst)]
  print [.field .ip6NhName (.name (protoName nxt)), .field .ip6Nxt (.num nxt), .field .ip6Hlim (.num hlim),
    .field .ip6Class (.num (trafficClass vtcFlow)), .field .ip6Flow (.hex (flowLabel vtcFlow)), .field .ip6Plen (.num payloadLen)]
  if nxt = ipprotoTcp then parseTcp (packet + ip6HdrSize) 40 (payloadLen + 40)
  else if nxt = ipprotoUdp then parseUdp (packet + ip6HdrSize) 40 (payloadLen + 40)

def parseArp (packet : Ptr) : Code Unit := do
  let senderIp ← arpSpa packet
  let targetIp ← arpTpa packet
  let op ← arOp packet
  let sha ← arpSha packet
  let tha ← arpTha packet
  let hrd ← arHrd packet
  let pro ← arPro packet
  let hln ← arHln packet
  let pln ← arPln packet
  print [.layer .arp, .field .arOp (.operation (decide (op = arpopRequest)))]
  print [.field .arpSha (.mac sha), .field .arpSpa (.ip senderIp), .field .arpTha (.mac tha), .field .arpTpa (.ip targetIp)]
  print [.field .arHrd (.num hrd), .field .arPro (.hex pro), .field .arHln (.num hln), .field .arPln (.num pln)]

/-! ## Layer 2 -/

/-- The word printed for an EtherType. -/
def etherName (type : Nat) : String :=
  if type = ethertypeIp then "IPv4" else if type = ethertypeIpv6 then "IPv6" else if type = ethertypeArp then "ARP" else "Unknown"

def parseEthernet (packet : Ptr) : Code Unit := do
  let type ← etherType packet
  let dhost ← etherDhost packet
  let shost ← etherShost packet
  print [.field .etherDhost (.mac dhost), .field .etherShost (.mac shost), .field .etherName (.name (etherName type)),
    .field .etherType (.hex type)]
  if type = ethertypeIp then parseIpv4 (packet + etherHeaderSize)
  else if type = ethertypeIpv6 then parseIpv6 (packet + etherHeaderSize)
  else if type = ethertypeArp then parseArp (packet + etherHeaderSize)

end Xv6SnifferBakery.Sniffer
