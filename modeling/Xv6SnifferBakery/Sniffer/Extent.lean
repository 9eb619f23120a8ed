import Xv6SnifferBakery.Sniffer.Inspector

/-!
# How far the dissectors read

Each dissector has an extent: the number of bytes, from the header it is given, that it reaches into. It follows from the lengths the
headers announce alone, so reading within a copy of `n` bytes is the extent being at most `n`.
-/

namespace Xv6SnifferBakery.Sniffer

open Lib

/-- An address in block `b`, below the offset `n`. -/
def Below (b n : Nat) (a : Ptr) : Prop := a.block = b ∧ a.off < n

@[simp] theorem below_add (b n : Nat) (p : Ptr) (k : Nat) : Below b n (p + k) ↔ p.block = b ∧ p.off + k < n := Iff.rfl

/-- The bytes of a range are below `n` when the range ends there at the latest. -/
theorem forall_below {b n : Nat} {p : Ptr} {k : Nat} :
    (∀ i < k, Below b n (p + i)) ↔ k = 0 ∨ p.block = b ∧ p.off + k ≤ n := by
  simp only [below_add]
  constructor
  · intro h
    by_cases hk : k = 0
    · exact Or.inl hk
    · have hlast := h (k - 1) (by omega)
      exact Or.inr ⟨hlast.1, by omega⟩
  · rintro (hk | ⟨hb, hn⟩) i hi
    · omega
    · exact ⟨hb, by omega⟩

theorem keeps_octets_below (m : Mem) (b n : Nat) (p : Ptr) (k : Nat) :
    (octets p k).Keeps (Below b n) m ↔ k = 0 ∨ p.block = b ∧ p.off + k ≤ n := by
  rw [keeps_octets, forall_below]

/-! ## The extents -/

/-- A TCP header, and what is printed of the data behind it. -/
def tcpExtent (m : Mem) (tcp : Ptr) (ipHeaderLen totalIpLen : Nat) : Nat :=
  let tcpHeaderLen := (m (tcp + 12)).toNat / 16 * 4
  let payloadLen := totalIpLen - ipHeaderLen - tcpHeaderLen
  max 18 (if payloadLen = 0 then 0 else tcpHeaderLen + min 64 payloadLen)

def udpExtent (m : Mem) (udp : Ptr) : Nat := 8 + min 64 (be16 m (udp + 4) - 8)

/-- The protocol that follows an IP header. -/
def l4Extent (proto : Nat) (tcp udp : Nat) : Nat := if proto = ipprotoTcp then tcp else if proto = ipprotoUdp then udp else 0

/-- The length of an IPv4 header. -/
def ipHeaderLen (m : Mem) (ip : Ptr) : Nat := (m ip).toNat % 16 * 4

/-- Behind an IPv4 header that nothing known follows, its options are not read. -/
def ipv4Extent (m : Mem) (ip : Ptr) : Nat :=
  let hl := ipHeaderLen m ip
  max 20 (l4Extent (m (ip + 9)).toNat (hl + tcpExtent m (ip + hl) hl (be16 m (ip + 2))) (hl + udpExtent m (ip + hl)))

def ipv6Extent (m : Mem) (ip6 : Ptr) : Nat :=
  40 + l4Extent (m (ip6 + 6)).toNat (tcpExtent m (ip6 + 40) 40 (be16 m (ip6 + 4) + 40)) (udpExtent m (ip6 + 40))

/-- The Ethernet header, with what follows it. -/
def etherExtent (m : Mem) (p : Ptr) (ip ip6 arp : Nat) : Nat :=
  14 + if be16 m (p + 12) = ethertypeIp then ip else if be16 m (p + 12) = ethertypeIpv6 then ip6
    else if be16 m (p + 12) = ethertypeArp then arp else 0

/-- The extent of the live view of a frame. -/
def liveExtent (m : Mem) (p : Ptr) : Nat := etherExtent m p (ipv4Extent m (p + 14)) (ipv6Extent m (p + 14)) 28

/-- In the inspector a TCP header is printed whole, byte by byte, and so is an IPv4 header. -/
def detailsTcpExtent (m : Mem) (tcp : Ptr) : Nat := max 18 ((m (tcp + 12)).toNat / 16 * 4)

def detailsIpv4Extent (m : Mem) (ip : Ptr) : Nat :=
  max 20 (ipHeaderLen m ip + l4Extent (m (ip + 9)).toNat (detailsTcpExtent m (ip + ipHeaderLen m ip)) 8)

def detailsIpv6Extent (m : Mem) (ip6 : Ptr) : Nat := 40 + l4Extent (m (ip6 + 6)).toNat (detailsTcpExtent m (ip6 + 40)) 8

/-- The extent of the headers in the inspector. -/
def headersExtent (m : Mem) (p : Ptr) : Nat := etherExtent m p (detailsIpv4Extent m (p + 14)) (detailsIpv6Extent m (p + 14)) 28

/-- The extent of the details of a packet: of its headers, and of a dump of `len` bytes. -/
def detailsExtent (m : Mem) (sp : StoredPacket) : Nat := max (headersExtent m sp.data) (asInt sp.header.len).toNat

/-- The summary shows the ports of TCP and UDP over IPv4. -/
def summaryIpv4Extent (m : Mem) (ip : Ptr) : Nat :=
  max 20 (l4Extent (m (ip + 9)).toNat (ipHeaderLen m ip + 4) (ipHeaderLen m ip + 4))

/-- The extent of the line of the summary. -/
def summaryExtent (m : Mem) (p : Ptr) : Nat := etherExtent m p (summaryIpv4Extent m (p + 14)) 40 28

/-! ## The dumps -/

section
variable (m : Mem) (b n : Nat) (p : Ptr)

theorem keeps_printAscii {first last : Nat} (h_le : first ≤ last) :
    (printAscii p first last).Keeps (Below b n) m ↔ p.block = b ∧ p.off + last < n := by
  simp only [printAscii, Prog.keeps_each, Prog.keeps_bind, Prog.keeps_fetch, keeps_put, and_true, below_add, List.mem_range'_1]
  constructor
  · intro h
    exact h last ⟨h_le, by omega⟩
  · rintro ⟨hb, hn⟩ i hi
    exact ⟨hb, by omega⟩

theorem keeps_printPadding (P : Ptr → Prop) (k : Nat) : (printPadding k).Keeps P m := by simp [printPadding]

theorem keeps_printPayloadByte (len i : Nat) : (printPayloadByte p len i).Keeps (Below b n) m ↔ p.block = b ∧ p.off + i < n := by
  have h_row : i - i % 16 ≤ i := Nat.sub_le _ _
  simp +contextual [printPayloadByte, keeps_printAscii, keeps_printPadding, h_row]

theorem keeps_printPayload {len : Int} (h_pos : 0 < len) :
    (printPayload p len).Keeps (Below b n) m ↔ p.block = b ∧ p.off + min 64 len.toNat ≤ n := by
  simp only [printPayload, Prog.keeps_each, List.mem_range, keeps_printPayloadByte, ← below_add, forall_below]
  split <;> omega

theorem keeps_printHexDumpByte (len i : Nat) :
    (printHexDumpByte p len i).Keeps (Below b n) m ↔ p.block = b ∧ p.off + i < n := by
  have h_row : i - i % 16 ≤ i := Nat.sub_le _ _
  simp +contextual [printHexDumpByte, keeps_printAscii, keeps_printPadding, h_row]

theorem keeps_printFullHexDump (len : Int) :
    (printFullHexDump p len).Keeps (Below b n) m ↔ len ≤ 0 ∨ p.block = b ∧ p.off + len.toNat ≤ n := by
  simp only [printFullHexDump, Prog.keeps_each, List.mem_range, keeps_printHexDumpByte, ← below_add, forall_below, Int.toNat_eq_zero]

theorem keeps_printRaw (k : Nat) : (printRaw p k).Keeps (Below b n) m ↔ k = 0 ∨ p.block = b ∧ p.off + k ≤ n := by
  simp only [printRaw, Prog.keeps_bind, keeps_octets_below, keeps_print, and_true]

/-! ## The live view -/

theorem keeps_parseTcp (ipHeaderLen totalIpLen : Nat) :
    (parseTcp p ipHeaderLen totalIpLen).Keeps (Below b n) m ↔
      p.block = b ∧ p.off + tcpExtent m p ipHeaderLen totalIpLen ≤ n := by
  simp +contextual only [parseTcp, Prog.keeps_bind, keeps_ntohs, keeps_ntohl, keeps_octet, keeps_thOff, keeps_print, Prog.keeps_onlyIf,
    run_thOff, keeps_printPayload, Below, Ptr.add_add, Ptr.block_add, Ptr.off_add, true_and, tcpExtent]
  generalize (m (p + 12)).toNat / 16 * 4 = h
  split <;> omega

theorem keeps_parseUdp (ipHeaderLen totalIpLen : Nat) :
    (parseUdp p ipHeaderLen totalIpLen).Keeps (Below b n) m ↔ p.block = b ∧ p.off + udpExtent m p ≤ n := by
  simp +contextual only [parseUdp, Prog.keeps_bind, keeps_ntohs, run_ntohs, keeps_print, Prog.keeps_onlyIf, keeps_printPayload,
    Below, Ptr.add_add, Ptr.block_add, Ptr.off_add, true_and, udpExtent]
  omega

theorem keeps_parseIpv4 : (parseIpv4 p).Keeps (Below b n) m ↔ p.block = b ∧ p.off + ipv4Extent m p ≤ n := by
  simp only [parseIpv4, Prog.keeps_bind, keeps_octets_below, keeps_ntohs, run_ntohs, keeps_octet, run_octet, keeps_ipHl, run_ipHl,
    keeps_print, Below, Ptr.add_add, Ptr.block_add, Ptr.off_add, true_and, ipv4Extent, l4Extent, ipHeaderLen]
  by_cases h_tcp : (m (p + 9)).toNat = ipprotoTcp
  · simp only [if_pos h_tcp, keeps_parseTcp, Ptr.block_add, Ptr.off_add]
    omega
  · by_cases h_udp : (m (p + 9)).toNat = ipprotoUdp
    · simp only [if_neg h_tcp, if_pos h_udp, keeps_parseUdp, Ptr.block_add, Ptr.off_add]
      omega
    · simp only [if_neg h_tcp, if_neg h_udp, Prog.keeps_pure, and_true]
      omega

theorem keeps_parseIpv6 : (parseIpv6 p).Keeps (Below b n) m ↔ p.block = b ∧ p.off + ipv6Extent m p ≤ n := by
  simp only [parseIpv6, Prog.keeps_bind, keeps_octets_below, keeps_ntohs, run_ntohs, keeps_ntohl, keeps_octet, run_octet,
    keeps_print, Below, Ptr.add_add, Ptr.block_add, Ptr.off_add, true_and, ipv6Extent, l4Extent, ip6HdrSize]
  by_cases h_tcp : (m (p + 6)).toNat = ipprotoTcp
  · simp only [if_pos h_tcp, keeps_parseTcp, Ptr.block_add, Ptr.off_add]
    omega
  · by_cases h_udp : (m (p + 6)).toNat = ipprotoUdp
    · simp only [if_neg h_tcp, if_pos h_udp, keeps_parseUdp, Ptr.block_add, Ptr.off_add]
      omega
    · simp only [if_neg h_tcp, if_neg h_udp, Prog.keeps_pure, and_true]
      omega

theorem keeps_parseArp : (parseArp p).Keeps (Below b n) m ↔ p.block = b ∧ p.off + 28 ≤ n := by
  simp only [parseArp, Prog.keeps_bind, keeps_octets_below, keeps_ntohs, keeps_octet, keeps_print, Below, Ptr.add_add, Ptr.block_add,
    Ptr.off_add, and_true]
  omega

/-- The reads of the live view end where its extent does. -/
theorem keeps_parseEthernet : (parseEthernet p).Keeps (Below b n) m ↔ p.block = b ∧ p.off + liveExtent m p ≤ n := by
  simp only [parseEthernet, Prog.keeps_bind, keeps_octets_below, keeps_ntohs, run_ntohs, keeps_print, Below, Ptr.add_add, Ptr.block_add,
    Ptr.off_add, true_and, liveExtent, etherExtent, etherHeaderSize]
  by_cases h_ip : be16 m (p + 12) = ethertypeIp
  · simp only [if_pos h_ip, keeps_parseIpv4, Ptr.block_add, Ptr.off_add]
    omega
  by_cases h_ip6 : be16 m (p + 12) = ethertypeIpv6
  · simp only [if_neg h_ip, if_pos h_ip6, keeps_parseIpv6, Ptr.block_add, Ptr.off_add]
    omega
  by_cases h_arp : be16 m (p + 12) = ethertypeArp
  · simp only [if_neg h_ip, if_neg h_ip6, if_pos h_arp, keeps_parseArp, Ptr.block_add, Ptr.off_add]
    omega
  · simp only [if_neg h_ip, if_neg h_ip6, if_neg h_arp, Prog.keeps_pure, and_true]
    omega

/-! ## The inspector -/

theorem keeps_detailsTcp : (detailsTcp p).Keeps (Below b n) m ↔ p.block = b ∧ p.off + detailsTcpExtent m p ≤ n := by
  simp only [detailsTcp, Prog.keeps_bind, keeps_ntohs, keeps_ntohl, keeps_thOff, run_thOff, keeps_print, keeps_printRaw, Below,
    Ptr.add_add, Ptr.block_add, Ptr.off_add, true_and, detailsTcpExtent]
  omega

theorem keeps_detailsUdp : (detailsUdp p).Keeps (Below b n) m ↔ p.block = b ∧ p.off + 8 ≤ n := by
  simp only [detailsUdp, Prog.keeps_bind, keeps_ntohs, keeps_print, keeps_printRaw, Below, Ptr.add_add, Ptr.block_add, Ptr.off_add,
    true_and]
  omega

theorem keeps_detailsIpv4 : (detailsIpv4 p).Keeps (Below b n) m ↔ p.block = b ∧ p.off + detailsIpv4Extent m p ≤ n := by
  simp only [detailsIpv4, Prog.keeps_bind, keeps_octets_below, keeps_ntohs, keeps_octet, run_octet, keeps_ipHl, run_ipHl, keeps_ipV,
    keeps_print, keeps_printRaw, Below, Ptr.add_add, Ptr.block_add, Ptr.off_add, true_and, detailsIpv4Extent, l4Extent, ipHeaderLen]
  by_cases h_tcp : (m (p + 9)).toNat = ipprotoTcp
  · simp only [if_pos h_tcp, keeps_detailsTcp, Ptr.block_add, Ptr.off_add]
    omega
  · by_cases h_udp : (m (p + 9)).toNat = ipprotoUdp
    · simp only [if_neg h_tcp, if_pos h_udp, keeps_detailsUdp, Ptr.block_add, Ptr.off_add]
      omega
    · simp only [if_neg h_tcp, if_neg h_udp, Prog.keeps_pure, and_true]
      omega

theorem keeps_detailsIpv6 : (detailsIpv6 p).Keeps (Below b n) m ↔ p.block = b ∧ p.off + detailsIpv6Extent m p ≤ n := by
  simp only [detailsIpv6, Prog.keeps_bind, keeps_octets_below, keeps_ntohl, keeps_octet, run_octet, keeps_print, keeps_printRaw, Below,
    Ptr.block_add, Ptr.off_add, true_and, detailsIpv6Extent, l4Extent, ip6HdrSize]
  by_cases h_tcp : (m (p + 6)).toNat = ipprotoTcp
  · simp only [if_pos h_tcp, keeps_detailsTcp, Ptr.block_add, Ptr.off_add]
    omega
  · by_cases h_udp : (m (p + 6)).toNat = ipprotoUdp
    · simp only [if_neg h_tcp, if_pos h_udp, keeps_detailsUdp, Ptr.block_add, Ptr.off_add]
      omega
    · simp only [if_neg h_tcp, if_neg h_udp, Prog.keeps_pure, and_true]
      omega

theorem keeps_detailsArp : (detailsArp p).Keeps (Below b n) m ↔ p.block = b ∧ p.off + 28 ≤ n := by
  simp only [detailsArp, Prog.keeps_bind, keeps_octets_below, keeps_ntohs, keeps_octet, keeps_print, keeps_printRaw, Below, Ptr.add_add,
    Ptr.block_add, Ptr.off_add, true_and, etherArpSize]
  omega

/-- The reads of the details of a packet end where their extent does. -/
theorem keeps_packetDetails (id : Nat) (sp : StoredPacket) :
    (packetDetails id sp).Keeps (Below b n) m ↔ sp.data.block = b ∧ sp.data.off + detailsExtent m sp ≤ n := by
  simp only [packetDetails, Prog.keeps_bind, keeps_octets_below, keeps_ntohs, run_ntohs, keeps_print, keeps_printRaw,
    keeps_printFullHexDump, Below, Ptr.add_add, Ptr.block_add, Ptr.off_add, true_and, detailsLayer3, detailsExtent, headersExtent,
    etherExtent, etherHeaderSize]
  by_cases h_ip : be16 m (sp.data + 12) = ethertypeIp
  · simp only [if_pos h_ip, keeps_detailsIpv4, Ptr.block_add, Ptr.off_add]
    omega
  by_cases h_ip6 : be16 m (sp.data + 12) = ethertypeIpv6
  · simp only [if_neg h_ip, if_pos h_ip6, keeps_detailsIpv6, Ptr.block_add, Ptr.off_add]
    omega
  by_cases h_arp : be16 m (sp.data + 12) = ethertypeArp
  · simp only [if_neg h_ip, if_neg h_ip6, if_pos h_arp, keeps_detailsArp, Ptr.block_add, Ptr.off_add]
    omega
  · simp only [if_neg h_ip, if_neg h_ip6, if_neg h_arp, Prog.keeps_pure, true_and]
    omega

/-- The reads for a line of the summary end where its extent does. -/
theorem keeps_getSummaryInfo : (getSummaryInfo p).Keeps (Below b n) m ↔ p.block = b ∧ p.off + summaryExtent m p ≤ n := by
  simp only [getSummaryInfo, Prog.keeps_bind, keeps_ntohs, run_ntohs, Below, Ptr.add_add, Ptr.block_add, Ptr.off_add, summaryExtent,
    summaryIpv4Extent, etherExtent, etherHeaderSize, l4Extent, ipHeaderLen]
  by_cases h_ip : be16 m (p + 12) = ethertypeIp
  · simp only [if_pos h_ip, Prog.keeps_bind, keeps_octets_below, keeps_octet, run_octet, Below, Ptr.add_add, Ptr.block_add, Ptr.off_add]
    by_cases h_tcp : (m (p + 23)).toNat = ipprotoTcp
    · simp only [if_pos h_tcp, Prog.keeps_bind, Prog.keeps_pure, keeps_ntohs, keeps_ipHl, run_ipHl, Below, Ptr.add_add, Ptr.block_add,
        Ptr.off_add, and_true]
      omega
    · by_cases h_udp : (m (p + 23)).toNat = ipprotoUdp
      · simp only [if_neg h_tcp, if_pos h_udp, Prog.keeps_bind, Prog.keeps_pure, keeps_ntohs, keeps_ipHl, run_ipHl, Below, Ptr.add_add,
          Ptr.block_add, Ptr.off_add, and_true]
        omega
      · simp only [if_neg h_tcp, if_neg h_udp, Prog.keeps_pure, and_true]
        omega
  by_cases h_arp : be16 m (p + 12) = ethertypeArp
  · have h_ip6 : be16 m (p + 12) ≠ ethertypeIpv6 := by rw [h_arp]; decide
    simp only [if_neg h_ip, if_pos h_arp, if_neg h_ip6, Prog.keeps_bind, Prog.keeps_pure, keeps_octets_below, Ptr.add_add,
      Ptr.block_add, Ptr.off_add, and_true]
    omega
  by_cases h_ip6 : be16 m (p + 12) = ethertypeIpv6
  · simp only [if_neg h_ip, if_neg h_arp, if_pos h_ip6, Prog.keeps_bind, Prog.keeps_pure, keeps_octets_below, keeps_octet, Below,
      Ptr.add_add, Ptr.block_add, Ptr.off_add, and_true]
    omega
  · simp only [if_neg h_ip, if_neg h_ip6, if_neg h_arp, Prog.keeps_pure, and_true]
    omega

end

end Xv6SnifferBakery.Sniffer
