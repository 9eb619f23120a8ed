import Xv6SnifferBakery.Sniffer.Extent

/-!
# The payload that is shown

TCP takes the length of its payload from the IP datagram, so what it shows ends with the datagram; UDP takes it from its own length and
does not look at the datagram's. Neither looks at whether the header lengths are those of a header. The payload shown lies where it
should exactly when nothing is announced or the three lengths are consistent.
-/

namespace Xv6SnifferBakery.Sniffer

open Lib

/-! ## The bytes of a payload -/

/-- The address of a byte shown in hexadecimal. -/
def Shown.octetAt : Shown → Option Ptr
  | .piece (.octet p _) => some p
  | _ => none

/-- The addresses of the bytes shown, in order. -/
def octetsShown (items : List Shown) : List Ptr := items.filterMap Shown.octetAt

@[simp] theorem octetsShown_nil : octetsShown [] = [] := rfl

@[simp] theorem octetsShown_cons (x : Shown) (l : List Shown) : octetsShown (x :: l) = x.octetAt.toList ++ octetsShown l := by
  rw [octetsShown, List.filterMap_cons]
  cases x.octetAt <;> rfl

@[simp] theorem octetsShown_append (l l' : List Shown) : octetsShown (l ++ l') = octetsShown l ++ octetsShown l' :=
  List.filterMap_append

theorem octetsShown_flatMap {ι : Type} (l : List ι) (f : ι → List Shown) :
    octetsShown (l.flatMap f) = l.flatMap fun i => octetsShown (f i) :=
  List.filterMap_flatMap

section
variable (m : Mem) (p : Ptr)

theorem octetsShown_printPadding (n : Nat) : octetsShown ((printPadding n).out m) = [] := by
  simp [printPadding, octetsShown_flatMap, Shown.octetAt]

theorem octetsShown_printAscii (first last : Nat) : octetsShown ((printAscii p first last).out m) = [] := by
  simp [printAscii, octetsShown_flatMap, Shown.octetAt]

theorem octetsShown_printPayloadByte (len i : Nat) : octetsShown ((printPayloadByte p len i).out m) = [p + i] := by
  simp only [printPayloadByte, Prog.out_bind, Prog.out_onlyIf, Prog.out_fetch, out_put, octetsShown_append]
  split <;> split <;> simp [apply_ite octetsShown, octetsShown_printPadding, octetsShown_printAscii, Shown.octetAt]

/-- The first 64 bytes are shown. -/
theorem octetsShown_printPayload (len : Int) :
    octetsShown ((printPayload p len).out m) = (List.range (min 64 len.toNat)).map (p + ·) := by
  have h_min : (if 64 < len then 64 else len).toNat = min 64 len.toNat := by split <;> omega
  simp only [printPayload, Prog.out_each, octetsShown_flatMap, octetsShown_printPayloadByte, h_min]
  exact List.map_eq_flatMap.symm

end

/-! ## The datagram a frame announces -/

/-- What the IP header says: its own length, the length of the datagram and the protocol in it. -/
structure Datagram where
  headerLen : Nat
  totalLen : Nat
  proto : Nat
deriving DecidableEq

/-- The datagram of an IPv4 or IPv6 frame. -/
def datagram (m : Mem) (p : Ptr) : Option Datagram :=
  if be16 m (p + 12) = ethertypeIp then some ⟨ipHeaderLen m (p + 14), be16 m (p + 16), (m (p + 23)).toNat⟩
  else if be16 m (p + 12) = ethertypeIpv6 then some ⟨40, be16 m (p + 18) + 40, (m (p + 20)).toNat⟩
  else none

namespace Datagram

variable (d : Datagram) (m : Mem) (p : Ptr)

/-- Where layer 4 starts. -/
def l4 : Ptr := p + (14 + d.headerLen)

/-- The length of a TCP header, from its data offset. -/
def tcpHeaderLen : Nat := (m (d.l4 p + 12)).toNat / 16 * 4

def udpLen : Nat := be16 m (d.l4 p + 4)

/-- The header of layer 4 with its options. -/
def l4HeaderLen : Nat := if d.proto = ipprotoTcp then d.tcpHeaderLen m p else 8

/-- Its fixed part. -/
def l4Fixed : Nat := if d.proto = ipprotoTcp then 20 else 8

/-- The length of the payload as the program has it. -/
def payloadLen : Int :=
  if d.proto = ipprotoTcp then d.totalLen - d.headerLen - d.tcpHeaderLen m p
  else if d.proto = ipprotoUdp then d.udpLen m p - 8
  else 0

/-- The header lengths are those of a header, and a UDP datagram ends within the IP datagram. -/
structure Consistent : Prop where
  ip : 20 ≤ d.headerLen
  tcp : d.proto = ipprotoTcp → 20 ≤ d.tcpHeaderLen m p
  udp : d.proto = ipprotoUdp → d.headerLen + d.udpLen m p ≤ d.totalLen

/-- The bytes at these addresses are a payload: a range behind the complete headers that ends with the datagram at the latest, in a
frame whose lengths are consistent. -/
structure Nested (addrs : List Ptr) : Prop where
  consistent : d.Consistent m p
  range : ∃ first, addrs = (List.range addrs.length).map (fun i => p + (first + i)) ∧
    14 + d.headerLen + d.l4Fixed ≤ first ∧ 14 + d.headerLen + d.l4HeaderLen m p ≤ first ∧ first + addrs.length ≤ 14 + d.totalLen

end Datagram

section
variable (m : Mem) (p : Ptr)

theorem octetsShown_parseTcp (h t : Nat) :
    octetsShown ((parseTcp p h t).out m) =
      let len := (m (p + 12)).toNat / 16 * 4
      (List.range (min 64 ((t : Int) - h - len).toNat)).map fun i => p + (len + i) := by
  simp only [parseTcp, Prog.out_bind, Prog.out_onlyIf, out_ntohs, out_ntohl, out_octet, out_thOff, run_thOff, out_print,
    octetsShown_append, apply_ite octetsShown, octetsShown_printPayload, octetsShown_cons, octetsShown_nil, Shown.octetAt,
    Option.toList_none, List.nil_append, Ptr.add_add]
  split
  · rfl
  · next h_none =>
    rw [Int.toNat_of_nonpos (Int.not_lt.mp h_none)]
    rfl

theorem octetsShown_parseUdp (h t : Nat) :
    octetsShown ((parseUdp p h t).out m) = (List.range (min 64 ((be16 m (p + 4) : Int) - 8).toNat)).map fun i => p + (8 + i) := by
  simp only [parseUdp, Prog.out_bind, Prog.out_onlyIf, out_ntohs, run_ntohs, out_print, octetsShown_append, apply_ite octetsShown,
    octetsShown_printPayload, octetsShown_cons, octetsShown_nil, Shown.octetAt, Option.toList_none, List.nil_append, Ptr.add_add]
  split
  · rfl
  · next h_none =>
    rw [Int.toNat_of_nonpos (Int.not_lt.mp h_none)]
    rfl

/-- The payload of a datagram: at most 64 bytes, behind the header of layer 4. -/
def payloadAddrs (d : Datagram) : List Ptr :=
  (List.range (min 64 (d.payloadLen m p).toNat)).map fun i => p + (14 + d.headerLen + d.l4HeaderLen m p + i)

theorem octetsShown_parseIpv4 :
    octetsShown ((parseIpv4 (p + 14)).out m) =
      payloadAddrs m p ⟨ipHeaderLen m (p + 14), be16 m (p + 16), (m (p + 23)).toNat⟩ := by
  simp only [parseIpv4, Prog.out_bind, out_octets, out_ntohs, run_ntohs, out_octet, run_octet, out_ipHl, run_ipHl, out_print, fragment,
    octetsShown_append, octetsShown_cons, octetsShown_nil, Shown.octetAt, Option.toList_none, List.nil_append, Ptr.add_add,
    payloadAddrs, Datagram.payloadLen, Datagram.l4HeaderLen, Datagram.tcpHeaderLen, Datagram.udpLen, Datagram.l4, ipHeaderLen]
  by_cases h_tcp : (m (p + 23)).toNat = ipprotoTcp
  · simp only [if_pos h_tcp, octetsShown_parseTcp, Ptr.add_add, Nat.add_assoc]
  · by_cases h_udp : (m (p + 23)).toNat = ipprotoUdp
    · simp only [if_neg h_tcp, if_pos h_udp, octetsShown_parseUdp, Ptr.add_add, Nat.add_assoc]
    · simp [if_neg h_tcp, if_neg h_udp]

theorem octetsShown_parseIpv6 :
    octetsShown ((parseIpv6 (p + 14)).out m) = payloadAddrs m p ⟨40, be16 m (p + 18) + 40, (m (p + 20)).toNat⟩ := by
  simp only [parseIpv6, Prog.out_bind, out_octets, out_ntohs, run_ntohs, out_ntohl, out_octet, run_octet, out_print,
    octetsShown_append, octetsShown_cons, octetsShown_nil, Shown.octetAt, Option.toList_none, List.nil_append, Ptr.add_add,
    payloadAddrs, Datagram.payloadLen, Datagram.l4HeaderLen, Datagram.tcpHeaderLen, Datagram.udpLen, Datagram.l4, ip6HdrSize]
  by_cases h_tcp : (m (p + 20)).toNat = ipprotoTcp
  · simp only [if_pos h_tcp, octetsShown_parseTcp, Ptr.add_add, Nat.add_assoc, Nat.reduceAdd]
  · by_cases h_udp : (m (p + 20)).toNat = ipprotoUdp
    · simp only [if_neg h_tcp, if_pos h_udp, octetsShown_parseUdp, Ptr.add_add, ← Nat.add_assoc, Nat.reduceAdd]
    · simp [if_neg h_tcp, if_neg h_udp]

theorem octetsShown_parseArp (q : Ptr) : octetsShown ((parseArp q).out m) = [] := by
  simp [parseArp, Shown.octetAt]

/-- The bytes the live view shows of a frame. -/
theorem octetsShown_parseEthernet :
    octetsShown ((parseEthernet p).out m) = match datagram m p with
      | none => []
      | some d => payloadAddrs m p d := by
  simp only [parseEthernet, Prog.out_bind, out_octets, out_ntohs, run_ntohs, out_print, octetsShown_append, octetsShown_cons,
    octetsShown_nil, Shown.octetAt, Option.toList_none, List.nil_append, datagram, etherHeaderSize]
  by_cases h_ip : be16 m (p + 12) = ethertypeIp
  · simp only [if_pos h_ip, octetsShown_parseIpv4]
  by_cases h_ip6 : be16 m (p + 12) = ethertypeIpv6
  · simp only [if_neg h_ip, if_pos h_ip6, octetsShown_parseIpv6]
  · simp [if_neg h_ip, if_neg h_ip6, apply_ite octetsShown, octetsShown_parseArp]

end

/-- Nothing that `parse_packet` prints before it dissects the frame is a byte of it. -/
theorem octetsShown_live (s : State) (c : Capture) :
    octetsShown (s.live c) = octetsShown ((parseEthernet packetPtr).out (s.deliver c).mem) := by
  have h_store (t : State) (m : Mem) : octetsShown ((t.storePacket c.alloc c.header packetPtr).out m) = [] := by
    unfold State.storePacket
    split
    · rfl
    · split
      · simp [Shown.octetAt]
      · split <;> simp [Shown.octetAt]
  simp [State.live, State.callback, State.parsePacket, h_store, Shown.octetAt]

/-- The payload shown is nested in its datagram exactly when none is announced or the datagram is consistent. -/
theorem nested_iff (m : Mem) (p : Ptr) (d : Datagram) :
    (payloadAddrs m p d ≠ [] → d.Nested m p (payloadAddrs m p d)) ↔ (0 < d.payloadLen m p → d.Consistent m p) := by
  have h_len : (payloadAddrs m p d).length = min 64 (d.payloadLen m p).toNat := by simp [payloadAddrs]
  have h_some : payloadAddrs m p d ≠ [] ↔ 0 < d.payloadLen m p := by
    rw [← List.length_pos_iff, h_len]
    omega
  rw [h_some]
  refine forall_congr' fun h_pos => ⟨Datagram.Nested.consistent, fun h => ⟨h, ?_⟩⟩
  refine ⟨14 + d.headerLen + d.l4HeaderLen m p, ?_, ?_, Nat.le_refl _, ?_⟩
  · rw [h_len]
    rfl
  · have h_tcp := h.tcp
    unfold Datagram.l4Fixed Datagram.l4HeaderLen
    split <;> omega
  · have h_udp := h.udp
    rw [h_len]
    unfold Datagram.payloadLen at h_pos ⊢
    unfold Datagram.l4HeaderLen
    split at h_pos
    · next h_is =>
      simp only [if_pos h_is]
      omega
    · next h_not =>
      split at h_pos
      · next h_is =>
        simp only [if_neg h_not, if_pos h_is]
        have := h_udp h_is
        omega
      · exact absurd h_pos (Int.lt_irrefl _)

/-- For every frame: the bytes of a payload that is shown are nested in the datagram, and a frame with inconsistent lengths has none
shown, exactly when the lengths are consistent wherever the program finds a payload. -/
theorem payload_nested_iff (s : State) (c : Capture) :
    (octetsShown (s.live c) ≠ [] →
      ∃ d, datagram (s.deliver c).mem packetPtr = some d ∧ d.Nested (s.deliver c).mem packetPtr (octetsShown (s.live c))) ↔
    ∀ d, datagram (s.deliver c).mem packetPtr = some d →
      0 < d.payloadLen (s.deliver c).mem packetPtr → d.Consistent (s.deliver c).mem packetPtr := by
  rw [octetsShown_live, octetsShown_parseEthernet]
  cases datagram (s.deliver c).mem packetPtr with
  | none => simp
  | some d => simpa using nested_iff (s.deliver c).mem packetPtr d

/-- A frame of 60 bytes, captured whole: a UDP header that announces 26 bytes in an IP datagram with room for 8. -/
def paddedFrame : Capture :=
  ⟨⟨0, 0, 60, 60⟩, fun i => (([0, 0, 0, 0, 0, 0, 0, 0, 0, 0, 0, 0, 0x08, 0x00, 0x45, 0x00, 0x00, 0x1c, 0, 0, 0, 0, 64, 17] : List UInt8) ++
    List.replicate 14 0 ++ [0x00, 0x1a])[i]?.getD 0, ⟨true, true⟩⟩

/-- The padding of the Ethernet frame is shown as the payload. -/
theorem payload_of_padding :
    ¬ ∀ (s : State) (c : Capture), c.header.caplen = c.header.len → octetsShown (s.live c) ≠ [] →
      ∃ d, datagram (s.deliver c).mem packetPtr = some d ∧ d.Nested (s.deliver c).mem packetPtr (octetsShown (s.live c)) := by
  intro h
  have h_shown : octetsShown ((State.init fun _ => 0).live paddedFrame) ≠ [] := by decide +kernel
  have h_datagram : datagram ((State.init fun _ => 0).deliver paddedFrame).mem packetPtr = some ⟨20, 28, ipprotoUdp⟩ := by
    decide +kernel
  obtain ⟨d, hd, h_nested⟩ := h _ paddedFrame rfl h_shown
  obtain rfl := Option.some.inj (h_datagram.symm.trans hd)
  exact absurd (h_nested.consistent.udp rfl) (by decide +kernel)

end Xv6SnifferBakery.Sniffer
