import Xv6SnifferBakery.Lib.Reading

/-!
# Frames in memory, and what is shown of them

The dissectors follow pointers into a frame. A pointer is an offset into a block: the frame libpcap hands over is a block, and so is
each copy `malloc` gave room for. The headers of the system are read by the offsets their structures give the fields.

What goes to the terminal is a list of items: the fields with what they show, and the dumps character by character. The words printed
around a field are its name here.
-/

namespace Xv6SnifferBakery.Sniffer

open Lib

/-! ## Memory -/

@[ext] structure Ptr where
  block : Nat
  off : Nat
deriving DecidableEq

instance : HAdd Ptr Nat Ptr := ⟨fun p n => ⟨p.block, p.off + n⟩⟩

namespace Ptr

variable (p : Ptr) (m n : Nat)

@[simp] theorem block_add : (p + n).block = p.block := rfl
@[simp] theorem off_add : (p + n).off = p.off + n := rfl
@[simp] theorem add_add : p + m + n = p + (m + n) := Ptr.ext_iff.mpr ⟨rfl, by simp [Nat.add_assoc]⟩

end Ptr

abbrev Mem := Ptr → UInt8

/-! ## What is shown -/

/-- The fields the three views show, under the names of their structures. -/
inductive Field
  | etherDhost | etherShost | etherType | etherName
  | ipV | ipHl | ipLen | ipId | ipFlags | ipOff | ipTtl | ipP | ipProtoName | ipSrc | ipDst
  | ip6Class | ip6Flow | ip6Plen | ip6Nxt | ip6NhName | ip6Hlim
  | arHrd | arPro | arHln | arPln | arOp | arpSha | arpSpa | arpTha | arpTpa
  | thSport | thDport | thSeq | thAck | thOff | thFlags | thWin | thSum
  | uhSport | uhDport | uhUlen | uhSum
deriving DecidableEq

/-- What a field shows. An address stands for the text `inet_ntop` makes of its bytes. -/
inductive Value
  | num (n : Int)
  | hex (n : Nat)
  | mac (bytes : List UInt8)
  | ip (bytes : List UInt8)
  | ip6 (bytes : List UInt8)
  | name (s : String)
  | fragment (df mf : Bool)
  | flags (names : List String)
  /-- `REQUEST` or `REPLY` in the live view, `Request (1)` or `Reply (2)` in the inspector. -/
  | operation (request : Bool)
deriving DecidableEq

/-- The headings of the layers. -/
inductive Layer
  | ipv4 | ipv6 | arp | tcp | udp
deriving DecidableEq

/-- The characters of a dump. A byte is kept with the address it was read at. -/
inductive Piece
  | style (code : String)
  | text (s : String)
  /-- `"  %04x: "` -/
  | offset (i : Nat)
  /-- `"%02x "` -/
  | octet (p : Ptr) (b : UInt8)
  /-- `isprint(c) ? c : '.'` -/
  | glyph (p : Ptr) (b : UInt8)
deriving DecidableEq

/-- An item of the output. -/
inductive Shown
  | heading (number sec usec len : Int)
  | entry (id len : Int)
  | layer (l : Layer)
  | field (f : Field) (v : Value)
  | service (name : String)
  | payload (len : Int) (service : String)
  | raw (bytes : List UInt8)
  | dump (len : Int)
  | piece (p : Piece)
  | message (s : String)
deriving DecidableEq

/-- Code that reads memory and prints. -/
abbrev Code := Prog Ptr UInt8 Shown

def put (p : Piece) : Code Unit := Prog.emit (.piece p)

/-- A `printf` of fields. -/
def print (items : List Shown) : Code Unit := Prog.each Prog.emit items

@[simp] theorem out_print (m : Mem) (items : List Shown) : (print items).out m = items := by simp [print]

@[simp] theorem keeps_print (m : Mem) (P : Ptr → Prop) (items : List Shown) : (print items).Keeps P m := by simp [print]

@[simp] theorem out_put (m : Mem) (p : Piece) : (put p).out m = [.piece p] := rfl

@[simp] theorem keeps_put (m : Mem) (P : Ptr → Prop) (p : Piece) : (put p).Keeps P m := by simp [put]

/-! ## Reading -/

def octet (p : Ptr) : Code Nat := do
  let b ← Prog.fetch p
  pure b.toNat

/-- `ntohs` of two bytes. -/
def ntohs (p : Ptr) : Code Nat := do
  let hi ← octet p
  let lo ← octet (p + 1)
  pure (hi * 256 + lo)

/-- `ntohl` of four. -/
def ntohl (p : Ptr) : Code Nat := do
  let hi ← ntohs p
  let lo ← ntohs (p + 2)
  pure (hi * 65536 + lo)

def octets (p : Ptr) (n : Nat) : Code (List UInt8) := Prog.fetchAll ((List.range n).map (p + ·))

/-- The number two bytes in network order stand for. -/
def be16 (m : Mem) (p : Ptr) : Nat := (m p).toNat * 256 + (m (p + 1)).toNat

def be32 (m : Mem) (p : Ptr) : Nat := be16 m p * 65536 + be16 m (p + 2)

def bytesAt (m : Mem) (p : Ptr) (n : Nat) : List UInt8 := (List.range n).map fun i => m (p + i)

section
variable (m : Mem) (P : Ptr → Prop) (p : Ptr) (n : Nat)

@[simp] theorem run_octet : (octet p).run m = (m p).toNat := by simp [octet]
@[simp] theorem run_ntohs : (ntohs p).run m = be16 m p := by simp [ntohs, be16]
@[simp] theorem run_ntohl : (ntohl p).run m = be32 m p := by simp [ntohl, be32]
@[simp] theorem run_octets : (octets p n).run m = bytesAt m p n := by simp [octets, bytesAt]

@[simp] theorem out_octet : (octet p).out m = [] := by simp [octet]
@[simp] theorem out_ntohs : (ntohs p).out m = [] := by simp [ntohs]
@[simp] theorem out_ntohl : (ntohl p).out m = [] := by simp [ntohl]
@[simp] theorem out_octets : (octets p n).out m = [] := by simp [octets]

@[simp] theorem keeps_octet : (octet p).Keeps P m ↔ P p := by simp [octet]
@[simp] theorem keeps_ntohs : (ntohs p).Keeps P m ↔ P p ∧ P (p + 1) := by simp [ntohs]
@[simp] theorem keeps_ntohl : (ntohl p).Keeps P m ↔ (P p ∧ P (p + 1)) ∧ P (p + 2) ∧ P (p + 3) := by simp [ntohl]
@[simp] theorem keeps_octets : (octets p n).Keeps P m ↔ ∀ i < n, P (p + i) := by simp [octets]

end

/-! ## The headers -/

def etherHeaderSize : Nat := 14
def ip6HdrSize : Nat := 40
def etherArpSize : Nat := 28

def ethertypeIp : Nat := 0x0800
def ethertypeIpv6 : Nat := 0x86dd
def ethertypeArp : Nat := 0x0806
def ipprotoTcp : Nat := 6
def ipprotoUdp : Nat := 17
def arpopRequest : Nat := 1
def ipDf : Nat := 0x4000
def ipMf : Nat := 0x2000
def ipOffmask : Nat := 0x1fff

/-! `struct ether_header` -/

abbrev etherDhost (p : Ptr) : Code (List UInt8) := octets p 6
abbrev etherShost (p : Ptr) : Code (List UInt8) := octets (p + 6) 6
abbrev etherType (p : Ptr) : Code Nat := ntohs (p + 12)

/-! `struct ip` -/

/-- The low half of the first byte. -/
def ipHl (p : Ptr) : Code Nat := do
  let b ← octet p
  pure (b % 16)

/-- The high half. -/
def ipV (p : Ptr) : Code Nat := do
  let b ← octet p
  pure (b / 16)

abbrev ipLen (p : Ptr) : Code Nat := ntohs (p + 2)
abbrev ipId (p : Ptr) : Code Nat := ntohs (p + 4)
abbrev ipOff (p : Ptr) : Code Nat := ntohs (p + 6)
abbrev ipTtl (p : Ptr) : Code Nat := octet (p + 8)
abbrev ipP (p : Ptr) : Code Nat := octet (p + 9)
abbrev ipSrc (p : Ptr) : Code (List UInt8) := octets (p + 12) 4
abbrev ipDst (p : Ptr) : Code (List UInt8) := octets (p + 16) 4

/-! `struct ip6_hdr` -/

abbrev ip6Vtc (p : Ptr) : Code Nat := ntohl p
abbrev ip6Plen (p : Ptr) : Code Nat := ntohs (p + 4)
abbrev ip6Nxt (p : Ptr) : Code Nat := octet (p + 6)
abbrev ip6Hlim (p : Ptr) : Code Nat := octet (p + 7)
abbrev ip6Src (p : Ptr) : Code (List UInt8) := octets (p + 8) 16
abbrev ip6Dst (p : Ptr) : Code (List UInt8) := octets (p + 24) 16

/-! `struct ether_arp` -/

abbrev arHrd (p : Ptr) : Code Nat := ntohs p
abbrev arPro (p : Ptr) : Code Nat := ntohs (p + 2)
abbrev arHln (p : Ptr) : Code Nat := octet (p + 4)
abbrev arPln (p : Ptr) : Code Nat := octet (p + 5)
abbrev arOp (p : Ptr) : Code Nat := ntohs (p + 6)
abbrev arpSha (p : Ptr) : Code (List UInt8) := octets (p + 8) 6
abbrev arpSpa (p : Ptr) : Code (List UInt8) := octets (p + 14) 4
abbrev arpTha (p : Ptr) : Code (List UInt8) := octets (p + 18) 6
abbrev arpTpa (p : Ptr) : Code (List UInt8) := octets (p + 24) 4

/-! `struct tcphdr` -/

abbrev thSport (p : Ptr) : Code Nat := ntohs p
abbrev thDport (p : Ptr) : Code Nat := ntohs (p + 2)
abbrev thSeq (p : Ptr) : Code Nat := ntohl (p + 4)
abbrev thAck (p : Ptr) : Code Nat := ntohl (p + 8)

/-- The high half of its byte. -/
def thOff (p : Ptr) : Code Nat := do
  let b ← octet (p + 12)
  pure (b / 16)

abbrev thFlags (p : Ptr) : Code Nat := octet (p + 13)
abbrev thWin (p : Ptr) : Code Nat := ntohs (p + 14)
abbrev thSum (p : Ptr) : Code Nat := ntohs (p + 16)

/-! `struct udphdr` -/

abbrev uhSport (p : Ptr) : Code Nat := ntohs p
abbrev uhDport (p : Ptr) : Code Nat := ntohs (p + 2)
abbrev uhUlen (p : Ptr) : Code Nat := ntohs (p + 4)
abbrev uhSum (p : Ptr) : Code Nat := ntohs (p + 6)

section
variable (m : Mem) (P : Ptr → Prop) (p : Ptr)

@[simp] theorem run_ipHl : (ipHl p).run m = (m p).toNat % 16 := by simp [ipHl]
@[simp] theorem run_ipV : (ipV p).run m = (m p).toNat / 16 := by simp [ipV]
@[simp] theorem run_thOff : (thOff p).run m = (m (p + 12)).toNat / 16 := by simp [thOff]

@[simp] theorem out_ipHl : (ipHl p).out m = [] := by simp [ipHl]
@[simp] theorem out_ipV : (ipV p).out m = [] := by simp [ipV]
@[simp] theorem out_thOff : (thOff p).out m = [] := by simp [thOff]

@[simp] theorem keeps_ipHl : (ipHl p).Keeps P m ↔ P p := by simp [ipHl]
@[simp] theorem keeps_ipV : (ipV p).Keeps P m ↔ P p := by simp [ipV]
@[simp] theorem keeps_thOff : (thOff p).Keeps P m ↔ P (p + 12) := by simp [thOff]

end

/-! ## `struct pcap_pkthdr` -/

/-- The length fields are `bpf_u_int32`. -/
structure PcapPkthdr where
  tvSec : Int
  tvUsec : Int
  caplen : UInt32
  len : UInt32
deriving DecidableEq

/-- A `bpf_u_int32` where an `int` is wanted. -/
def asInt (n : UInt32) : Int := n.toBitVec.toInt

end Xv6SnifferBakery.Sniffer
